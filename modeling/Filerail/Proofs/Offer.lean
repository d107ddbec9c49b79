/-
Module: Filerail.Proofs.Offer
Layer: Proofs
Purpose: The rest of the sending handler around the transfer of the archive: its answer to the
  receiver's command, the verdict, and the removal of the archive. `prepare` is the part of the
  handler in front of the first frame; what it leaves is a hypothesis of `sendfileHandler_wp`, so that
  the handler can be verified for every way the archive may come about.
Imports: Filerail.Proofs.Sender
Main exports: Answered, Settled, offerZip_wp, prepare, sendfileHandler_eq, sendfileHandler_wp
-/
import Filerail.Proofs.Sender

namespace Filerail

open FileStore ProgramLogic

variable {lib : Lib} {env : SysEnv lib} {quiet : List (SysEvent lib) → Prop} {inv : World → Prop}
  {zip : CStr} {l : Loc} {i : Nat} {F : List UInt8} {home : Loc} {K : AESKeys}
  {faulty lossy loose total : Prop} {P' : Type} {proto : Protocol P' Schema.Val} {put : Phase → P'}
  {sender : Side} {terms : Terms}

/-! ### The answer to the receiver's command -/

/-- The sender has agreed to an offset, or lost the connection. -/
def Answered (quiet : List (SysEvent lib) → Prop) (inv : World → Prop) (put : Phase → P')
    (lossy : Prop) (terms : Terms) (F : List UInt8) (r : Option UInt64)
    (s : Endpoint (SysTape lib) P') : Prop :=
  (quiet s.tape.log ∧ inv s.tape.world) ∧
    ((∃ k, r = some k ∧ s.pos = put (.header (lib.md5.digest F) k) ∧ s.broken = false ∧
        (k = 0 ∨ terms.offset (lib.md5.digest F) k)) ∨
      (r = none ∧ lossy))

theorem wantsResume_wp {guard : SysTape lib → Option (Sys lib.md5.Ctx) → Prop}
    (steady : Steady env quiet inv) (allowed : ∀ t e, Unwatched e → guard t e) {t : SysTape lib}
    (calm : quiet t.log) (holds : inv t.world) (is_server : Bool) :
    Wp (tapeSem env (sysSem lib faulty)) guard total (wantsResume is_server) t
      (fun _ t' => quiet t'.log ∧ inv t'.world) := by
  unfold wantsResume
  simp only [Prog.bind_eq, Prog.pure_eq]
  cases is_server with
  | true =>
      rw [if_pos rfl, wp_ret]
      exact ⟨calm, holds⟩
  | false =>
      rw [if_neg Bool.false_ne_true]
      refine wp_calm steady calm holds (e := .scanf) trivial (allowed _ _ trivial)
        (fun r t' calm holds _ => ?_)
      exact wp_ret.mpr ⟨calm, holds⟩

theorem answerCommand_wp (carries : Carries proto put sender terms)
    (steady : Steady env quiet inv) {t : SysTape lib} (calm : quiet t.log) (holds : inv t.world)
    (some_offset : ∃ k, terms.offset (lib.md5.digest F) k) (is_server : Bool) {c : UInt8}
    (known : c = Command.resume.code ∨ c = Command.restart.code) :
    Wp (endpointSem proto sender lossy (tapeSem env (sysSem lib faulty))) (Conforms proto put sender)
      total (answerCommand is_server c)
      ⟨t, put ((Phase.command (lib.md5.digest F)).next ⟨.code, c⟩), false⟩
      (Answered quiet inv put lossy terms F) := by
  unfold answerCommand
  simp only [Prog.bind_eq, Prog.pure_eq]
  rcases known with rfl | rfl
  · rw [if_pos rfl, Phase.next_resume]
    apply wp_loc_bind
    refine wp_mono (wantsResume_wp steady (fun _ _ => conforms_loc) calm holds is_server) ?_
    rintro wants t₁ ⟨calm, holds⟩
    cases wants with
    | true =>
        rw [if_pos rfl]
        refine wp_transmit carries rfl (Or.inl rfl) conforms_send ?_ ?_
        · rw [if_pos rfl, Phase.next_ok]
          have calm := steady.sent calm .code Response.ok.code true
          rw [← Prog.bind_ret recvFileOffset]
          refine wp_receive (p := .offset _) (k := .offset) carries rfl rfl conforms_recv
            (fun _ => some_offset) ?_ ?_
          · intro k may
            rw [wp_ret, Phase.next_offset]
            exact ⟨⟨steady.received calm .offset (some k), holds⟩, Or.inl ⟨k, rfl, rfl, rfl, Or.inr may⟩⟩
          · intro lost
            rw [wp_ret]
            exact ⟨⟨steady.received calm .offset none, holds⟩, Or.inr ⟨rfl, lost⟩⟩
        · intro lost
          rw [if_neg Bool.false_ne_true, wp_ret]
          exact ⟨⟨steady.sent calm .code _ false, holds⟩, Or.inr ⟨rfl, lost⟩⟩
    | false =>
        rw [if_neg Bool.false_ne_true]
        refine wp_transmit carries rfl (Or.inr rfl) conforms_send ?_ ?_
        · rw [if_pos rfl, wp_ret, Phase.next_abort]
          exact ⟨⟨steady.sent calm .code _ true, holds⟩, Or.inl ⟨0, rfl, rfl, rfl, Or.inl rfl⟩⟩
        · intro lost
          rw [if_neg Bool.false_ne_true, wp_ret]
          exact ⟨⟨steady.sent calm .code _ false, holds⟩, Or.inr ⟨rfl, lost⟩⟩
  · rw [if_neg (by decide), if_pos rfl, Phase.next_restart, wp_ret]
    exact ⟨⟨calm, holds⟩, Or.inl ⟨0, rfl, rfl, rfl, Or.inl rfl⟩⟩

/-! ### The verdict -/

/-- How the sending handler returns: with `0` only if the receiver answered OK, and, unless it is
    excused, with an answer of the receiver. -/
def Settled (put : Phase → P') (excuse : Prop) (h : Hash) (r : Int)
    (s : Endpoint (SysTape lib) P') : Prop :=
  (r = 0 → s.pos = put (.done h Response.ok.code)) ∧
    (excuse ∨ ∃ v, s.pos = put (.done h v) ∧ s.broken = false ∧ (v = Response.ok.code → r = 0))

/-- `filerail_rm` on the archive: it is a file, or a symbolic link to one. -/
theorem rm_held_wp {guard : SysTape lib → Option (Sys lib.md5.Ctx) → Prop}
    (allowed : ∀ t e, Unwatched e → guard t e)
    (held : Holding env faulty quiet inv zip l i F home) {t : SysTape lib} (calm : quiet t.log)
    (holds : inv t.world) :
    Wp (tapeSem env (sysSem lib faulty)) guard total (rm zip) t
      (fun r t' => faulty ∨ (r = true ∧ t'.world.fs.node home = some .dir)) := by
  have removed : ∀ t : SysTape lib, quiet t.log → inv t.world →
      Wp (tapeSem env (sysSem lib faulty)) guard total (unlink zip) t
        (fun r t' => faulty ∨ (r = true ∧ t'.world.fs.node home = some .dir)) := by
    intro t calm holds
    rw [← Prog.bind_ret (unlink zip)]
    refine wp_alive held.steady.env_refl (by simp) (allowed _ _ trivial) ?_
    rintro r w' ⟨w, changed, answer⟩
    refine wp_ret.mpr ?_
    rcases held.back with fault | ⟨back, _⟩
    · exact Or.inl fault
    have holds := held.steady.keeps _ _ _ calm holds changed
    have here := back _ holds
    obtain ⟨x, named, kind⟩ := held.named holds
    have not_dir : x ≠ .dir := by
      rcases kind with ⟨j, rfl⟩ | ⟨l', rfl⟩
      · simp
      · simp
    rcases answer with (⟨fs', gone, rfl, rfl⟩ | ⟨stuck, _, _⟩) | ⟨fault, _, _⟩
    · refine Or.inr ⟨rfl, ?_⟩
      have other : home ≠ w.loc zip := by
        intro same
        rw [← same, here] at named
        exact not_dir (Option.some.inj named).symm
      show fs'.node home = _
      rw [((Store.unlink_spec gone).2 home other).1]
      exact here
    · obtain ⟨fs', gone⟩ := Store.unlink_isSome named not_dir
      rw [gone] at stuck
      cases stuck
    · exact Or.inl fault
  unfold rm
  rw [show MAX_PATH_LENGTH = 4096 + 1 from rfl, rmTree]
  simp only [Prog.bind_eq, Prog.pure_eq]
  refine wp_calm held.steady calm holds (e := .lstat zip) trivial (allowed _ _ trivial)
    (fun r t₁ calm holds answer => ?_)
  obtain ⟨x, named, kind⟩ := held.named holds
  rcases answer with ⟨found, _⟩ | ⟨fault, rfl, _⟩
  · cases r with
    | none => exact absurd found (by simp [StatOf, named])
    | some st =>
        have mode : st.st_mode = .reg ∨ st.st_mode = .lnk := by
          rcases kind with ⟨j, rfl⟩ | ⟨l', rfl⟩
          · simp only [StatOf, named] at found
            rw [found]
            exact Or.inl rfl
          · simp only [StatOf, named] at found
            exact Or.inr found
        dsimp only
        rcases mode with mode | mode
        · rw [mode]
          exact removed t₁ calm holds
        · rw [mode]
          exact removed t₁ calm holds
  · rw [wp_ret]
    exact Or.inl fault

theorem senderCleanUp_wp {guard : SysTape lib → Option (Sys lib.md5.Ctx) → Prop}
    (allowed : ∀ t e, Unwatched e → guard t e) (steady : Steady env quiet inv) {t : SysTape lib}
    (status : Int) :
    Wp (tapeSem env (sysSem lib faulty)) guard total (senderCleanUp none status) t
      (fun r _ => r = status) :=
  wp_alive steady.env_refl (by simp) (allowed _ _ trivial) (fun _ _ _ => wp_ret.mpr rfl)

/-- The handler gives up. -/
theorem abandonSending_wp (steady : Steady env quiet inv) {excuse : Prop} (why : excuse)
    {t : SysTape lib} {p : P'} {b : Bool} {h : Hash} :
    Wp (endpointSem proto sender lossy (tapeSem env (sysSem lib faulty))) (Conforms proto put sender)
      total (senderCleanUp none (-1)).loc ⟨t, p, b⟩ (Settled put excuse h) := by
  apply wp_endpoint_loc
  refine wp_mono (senderCleanUp_wp (fun _ _ => conforms_loc) steady _) ?_
  rintro r t' rfl
  exact ⟨fun impossible => absurd impossible (by decide), Or.inl why⟩

/-- The sender goes back to where it started. -/
theorem goHome_wp {guard : SysTape lib → Option (Sys lib.md5.Ctx) → Prop}
    (allowed : ∀ t e, Unwatched e → guard t e) (steady : Steady env quiet inv)
    (stays : faulty ∨ ∀ log w w', env log w w' → w.fs.node home = some .dir →
      w'.fs.node home = some .dir) {t : SysTape lib}
    (here : faulty ∨ t.world.fs.node home = some .dir) (status : Int) :
    Wp (tapeSem env (sysSem lib faulty)) guard total
      (Prog.bind (cd (render home)) (fun ok =>
        if ok = true then senderCleanUp none status else senderCleanUp none (-1))) t
      (fun r _ => r = status ∨ (r = -1 ∧ faulty)) := by
  refine wp_alive steady.env_refl (by simp) (allowed _ _ trivial) ?_
  rintro r w' ⟨w, changed, answer⟩
  cases r with
  | true =>
      rw [if_pos rfl]
      exact wp_mono (senderCleanUp_wp allowed steady status) (fun r _ same => Or.inl same)
  | false =>
      rw [if_neg Bool.false_ne_true]
      refine wp_mono (senderCleanUp_wp allowed steady _) (fun r _ same => Or.inr ⟨same, ?_⟩)
      rcases answer with (⟨no, _, _⟩ | ⟨_, not_dir, _⟩) | ⟨fault, _, _⟩
      · cases no
      · rcases here with fault | here
        · exact fault
        rcases stays with fault | stays
        · exact fault
        have dir := stays _ _ _ changed here
        rw [World.target, World.loc, resolve_render, Store.follow_eq_self (fun t link => by
          rw [dir] at link; cases link)] at not_dir
        exact absurd dir not_dir
      · exact fault

theorem finishSending_wp (carries : Carries proto put sender terms)
    (held : Holding env faulty quiet inv zip l i F home) {t : SysTape lib} (calm : quiet t.log)
    (holds : inv t.world) {h : Hash} :
    Wp (endpointSem proto sender lossy (tapeSem env (sysSem lib faulty))) (Conforms proto put sender)
      total (finishSending zip (render home)) ⟨t, put (.verdict h), false⟩
      (Settled put (Excuse lossy faulty loose F) h) := by
  have gone : ∀ (t : SysTape lib) (p : P') (b : Bool), Excuse lossy faulty loose F →
      Wp (endpointSem proto sender lossy (tapeSem env (sysSem lib faulty)))
        (Conforms proto put sender) total (senderCleanUp none (-1)).loc ⟨t, p, b⟩
        (Settled put (Excuse lossy faulty loose F) h) :=
    fun t p b why => abandonSending_wp held.steady why
  unfold finishSending
  simp only [Prog.bind_eq]
  refine wp_receive (p := .verdict h) (k := .code) carries rfl rfl conforms_recv
    (fun _ => ⟨Response.ok.code, Or.inl rfl⟩) ?_ ?_
  · intro v may
    have calm := held.steady.received calm .code (some v)
    obtain ⟨status, known, right⟩ : ∃ status : Int, (verdictStatus v : L lib Int) = .ret status ∧
        (status = 0 ↔ v = Response.ok.code) := by
      rcases may with rfl | rfl
      · exact ⟨0, rfl, by decide⟩
      · exact ⟨-1, rfl, by decide⟩
    dsimp only
    rw [known, Prog.loc_ret, Prog.ret_bind, Phase.next_verdict]
    apply wp_loc_bind
    refine wp_mono (rm_held_wp (fun _ _ => conforms_loc) held calm holds) ?_
    intro removed t₁ cleaned
    cases removed with
    | false =>
        rw [if_neg Bool.false_ne_true]
        exact gone _ _ _ (excuse_of_failure
          (Or.inr (cleaned.resolve_right (fun no => Bool.noConfusion no.1))))
    | true =>
        rw [if_pos rfl]
        have back : (Prog.loc (V := Schema.Val) (cd (render home) : L lib Bool)).bind (fun ok =>
            if ok = true then (senderCleanUp none status).loc else (senderCleanUp none (-1)).loc) =
            (Prog.bind (cd (render home) : L lib Bool) (fun ok =>
              if ok = true then senderCleanUp none status else senderCleanUp none (-1))).loc := by
          rw [Prog.loc_bind]
          congr 1
          funext ok
          cases ok <;> rfl
        rw [back]
        apply wp_endpoint_loc
        refine wp_mono (goHome_wp (fun _ _ => conforms_loc) held.steady
          (held.back.imp id (·.2)) (cleaned.imp id (·.2)) status) ?_
        rintro r t₂ (rfl | ⟨rfl, fault⟩)
        · exact ⟨fun zero => congrArg (fun v => put (.done h v)) (right.mp zero),
            Or.inr ⟨v, rfl, rfl, right.mpr⟩⟩
        · exact ⟨fun impossible => absurd impossible (by decide), Or.inl (excuse_of_failure (Or.inr fault))⟩
  · intro lost
    exact gone _ _ _ (excuse_of_failure (Or.inl lost))

/-! ### The handler -/

/-- From the hash on. -/
theorem offerZip_wp (carries : Carries proto put sender terms)
    (accepts : Accepts lib K loose terms F)
    (held : Holding env faulty quiet inv zip l i F home) (ordered : total → ¬ loose)
    {t : SysTape lib} (calm : quiet t.log) (holds : inv t.world) (is_server : Bool) :
    Wp (endpointSem proto sender lossy (tapeSem env (sysSem lib faulty))) (Conforms proto put sender)
      total (offerZip is_server zip (render home) K) ⟨t, put .hash, false⟩
      (Settled put (Excuse lossy faulty loose F) (lib.md5.digest F)) := by
  have gone : ∀ (t : SysTape lib) (p : P') (b : Bool), Excuse lossy faulty loose F →
      Wp (endpointSem proto sender lossy (tapeSem env (sysSem lib faulty)))
        (Conforms proto put sender) total (senderCleanUp none (-1)).loc ⟨t, p, b⟩
        (Settled put (Excuse lossy faulty loose F) (lib.md5.digest F)) :=
    fun t p b why => abandonSending_wp held.steady why
  unfold offerZip
  simp only [Prog.bind_eq]
  apply wp_loc_bind
  refine wp_mono (md5_wp held.steady held.file
    (fun t e _ _ peeks _ => conforms_loc peeks.unwatched) calm holds) ?_
  rintro hash t₁ ⟨⟨calm, holds⟩, digest, answered⟩
  cases hash with
  | none =>
      refine gone _ _ _ (excuse_of_failure (Or.inr (Classical.byContradiction (fun sound => ?_))))
      exact answered sound rfl
  | some h =>
      obtain rfl := digest h rfl
      dsimp only
      refine wp_transmit carries rfl accepts.hash conforms_send ?_ ?_
      · rw [if_pos rfl]
        have calm := held.steady.sent calm .hash (lib.md5.digest F) true
        refine wp_receive (p := .command _) (k := .code) carries rfl rfl conforms_recv
          (fun _ => ⟨_, Or.inr rfl⟩) ?_ ?_
        · intro c may
          have calm := held.steady.received calm .code (some c)
          dsimp only
          apply wp_bind
          refine wp_mono (answerCommand_wp (t := (Tape.record _ _ _).record _ _) carries held.steady
            calm holds accepts.some_offset is_server may) ?_
          rintro offset ⟨t₂, p, b⟩ ⟨⟨calm, holds⟩, ⟨k, rfl, rfl, rfl, agreed⟩ | ⟨rfl, lost⟩⟩
          · dsimp only
            apply wp_bind
            refine wp_mono (sendfile_wp carries accepts held ordered calm holds agreed) ?_
            rintro status ⟨t₃, p, b⟩ ⟨⟨calm, holds⟩, ⟨rfl, rfl, rfl⟩ | ⟨rfl, why⟩⟩
            · rw [if_neg (by decide)]
              exact finishSending_wp carries held calm holds
            · rw [if_pos rfl]
              exact gone _ _ _ why
          · exact gone _ _ _ (excuse_of_failure (Or.inl lost))
        · intro lost
          exact gone _ _ _ (excuse_of_failure (Or.inl lost))
      · intro lost
        rw [if_neg Bool.false_ne_true]
        exact gone _ _ _ (excuse_of_failure (Or.inl lost))

/-- What the handler does in front of the first frame: with the archive in place it answers the
    directory to go back to, else the status to return. -/
def prepare (resource_dir resource_name : CStr) (stat_resource : Stat) : L lib (Int ⊕ CStr) := do
  match ← getcwd with
  | none =>
      zipCloseWild
      return .inl (-1)
  | some current_dir =>
      if ← cd resource_dir then
        let (zip, ok) ← zipResource (resource_name ++ dotZip) resource_name stat_resource
        if ok then
          zipClose zip
          return .inr current_dir
        else
          let status ← senderCleanUp zip 0
          return .inl status
      else
        zipCloseWild
        return .inl (-1)

/-- The handler is `prepare` followed by the offer of the archive. -/
theorem sendfileHandler_eq (is_server : Bool) (resource_dir resource_name : CStr)
    (stat_resource : Stat) (K : AESKeys) :
    (sendfileHandler is_server resource_dir resource_name stat_resource K : P lib Int) =
      (prepare resource_dir resource_name stat_resource).loc.bind (fun out =>
        match out with
        | .inl status => .ret status
        | .inr current_dir => offerZip is_server (resource_name ++ dotZip) current_dir K) := by
  unfold sendfileHandler prepare
  simp only [Prog.bind_eq, Prog.pure_eq, Prog.loc_bind, Prog.bind_assoc]
  congr 1
  funext cwd
  cases cwd with
  | none => rfl
  | some current_dir =>
      simp only [Prog.loc_bind, Prog.bind_assoc]
      congr 1
      funext moved
      cases moved with
      | false => rfl
      | true =>
          simp only [if_pos, Prog.loc_bind, Prog.bind_assoc]
          congr 1
          funext out
          obtain ⟨zip, ok⟩ := out
          cases ok with
          | true => rfl
          | false => rfl

/-- The archive is in place, and the way back is known. -/
def Archived (env : SysEnv lib) (faulty : Prop) (zip : CStr) (F : List UInt8) (t : SysTape lib)
    (current_dir : CStr) : Prop :=
  ∃ quiet inv l i home, Holding env faulty quiet inv zip l i F home ∧ quiet t.log ∧ inv t.world ∧
    current_dir = render home

/-- What `prepare` leaves: a return before the first frame, or an archive out of `contents`. -/
def Prepared (env : SysEnv lib) (faulty : Prop) (zip : CStr) (contents : List UInt8 → Prop)
    (early : Int → SysTape lib → Prop) (out : Int ⊕ CStr) (t : SysTape lib) : Prop :=
  match out with
  | .inl status => early status t
  | .inr current_dir => ∃ F, contents F ∧ Archived env faulty zip F t current_dir

variable (put sender) in
/-- The sending handler keeps to the protocol, and comes to an end when it is asked to; it returns
    early, or as the receiver answered. -/
theorem sendfileHandler_wp (carries : Carries proto put sender terms) (ordered : total → ¬ loose)
    {contents : List UInt8 → Prop} (accepts : ∀ F, contents F → Accepts lib K loose terms F)
    {early : Int → SysTape lib → Prop} {is_server : Bool} {resource_dir resource_name : CStr}
    {stat_resource : Stat} {t : SysTape lib}
    (prepared : Wp (tapeSem env (sysSem lib faulty)) (fun _ e => Unwatched e) total
      (prepare resource_dir resource_name stat_resource) t
      (Prepared env faulty (resource_name ++ dotZip) contents early)) :
    Wp (endpointSem proto sender lossy (tapeSem env (sysSem lib faulty))) (Conforms proto put sender)
      total (sendfileHandler is_server resource_dir resource_name stat_resource K)
      ⟨t, put .hash, false⟩
      (fun r s => (early r s.tape ∧ s.pos = put .hash ∧ s.broken = false) ∨
        ∃ F, contents F ∧ Settled put (Excuse lossy faulty loose F) (lib.md5.digest F) r s) := by
  rw [sendfileHandler_eq]
  apply wp_loc_bind
  refine wp_mono (wp_guard_mono prepared (fun _ _ unwatched => conforms_loc unwatched)) ?_
  intro out t₁ ready
  cases out with
  | inl status => exact wp_ret.mpr (Or.inl ⟨ready, rfl, rfl⟩)
  | inr current_dir =>
      obtain ⟨F, known, quiet, inv, l, i, home, held, calm, holds, rfl⟩ := ready
      refine wp_mono (offerZip_wp carries (accepts F known) held ordered calm holds is_server) ?_
      intro r s settled
      exact Or.inr ⟨F, known, settled⟩

end Filerail
