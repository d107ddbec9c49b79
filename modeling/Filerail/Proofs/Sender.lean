/-
Module: Filerail.Proofs.Sender
Layer: Proofs
Purpose: The sending handler, against a receiver that keeps to the protocol. From the hash to the
  verdict the sender only reads its archive; whoever else is at work, and whichever calls fail, its
  frames describe one file as long as nobody touches that archive in between. How the archive came to
  be is left to the caller.
Imports: Filerail.Proofs.Transfer
Main exports: Accepts, Holding, offerZip_wp, Prepared, sendfileHandler_wp
-/
import Filerail.Proofs.Transfer

namespace Filerail

open FileStore ProgramLogic

variable {lib : Lib}

/-- The terms leave room for the transfer of the file. With `loose` they do not promise that an offset
    lies inside it. -/
structure Accepts (lib : Lib) (K : AESKeys) (loose : Prop) (terms : Terms) (F : List UInt8) :
    Prop where
  hash : terms.hash (lib.md5.digest F)
  some_offset : ∃ k, terms.offset (lib.md5.digest F) k
  offset : ∀ k, terms.offset (lib.md5.digest F) k → loose ∨ k ≤ .ofNat F.length
  size : ∀ k, k = 0 ∨ terms.offset (lib.md5.digest F) k →
    terms.size (lib.md5.digest F) k (.ofNat F.length)
  packet : ∀ pos rem d, loose ∨ pos + rem.toNat ≤ F.length → IsPacket lib K F pos rem d →
    terms.packet (lib.md5.digest F) pos rem d

theorem accepts_pinned {K : AESKeys} {F : List UInt8} {offsets : UInt64 → Prop}
    (small : F.length < 2 ^ 64) (some_offset : ∃ k, offsets k)
    (inside : ∀ k, offsets k → k.toNat ≤ F.length) :
    Accepts lib K False (pinned lib K F offsets) F where
  hash := rfl
  some_offset := some_offset
  offset k may := by
    refine Or.inr (UInt64.le_iff_toNat_le.mpr ?_)
    rw [UInt64.toNat_ofNat', Nat.mod_eq_of_lt small]
    exact inside k may
  size _ _ := rfl
  packet _ _ _ _ packet := packet

/-- The archive `zip` is the file `i` and holds `F`, and stays so while the log is quiet. Unless calls
    may fail anyway, the process can go back to `home`. -/
structure Holding (env : SysEnv lib) (faulty : Prop) (quiet : List (SysEvent lib) → Prop)
    (inv : World → Prop) (zip : CStr) (l : Loc) (i : Nat) (F : List UInt8) (home : Loc) : Prop where
  steady : Steady env quiet inv
  file : ∀ w, inv w → w.target zip = l ∧ w.fs.node l = some (.file i) ∧ w.fs.data i = F
  back : faulty ∨ (∀ w, inv w → w.fs.node home = some .dir) ∧
    ∀ log w w', env log w w' → w.fs.node home = some .dir → w'.fs.node home = some .dir

/-- The name of the archive is that of a file or of a symbolic link. -/
theorem Holding.named {env : SysEnv lib} {faulty : Prop} {quiet : List (SysEvent lib) → Prop}
    {inv : World → Prop} {zip : CStr} {l : Loc} {i : Nat} {F : List UInt8} {home : Loc}
    (held : Holding env faulty quiet inv zip l i F home) {w : World} (holds : inv w) :
    ∃ x, w.fs.node (w.loc zip) = some x ∧ ((∃ j, x = .file j) ∨ ∃ l', x = .link l') := by
  obtain ⟨target, node, _⟩ := held.file w holds
  by_cases link : ∃ l', w.fs.node (w.loc zip) = some (.link l')
  · obtain ⟨l', link⟩ := link
    exact ⟨_, link, Or.inr ⟨l', rfl⟩⟩
  · rw [World.target, Store.follow_eq_self (fun t here => link ⟨t, here⟩)] at target
    exact ⟨_, target ▸ node, Or.inl ⟨i, rfl⟩⟩

section Sending

variable {env : SysEnv lib} {quiet : List (SysEvent lib) → Prop} {inv : World → Prop}
  {zip : CStr} {l : Loc} {i : Nat} {F : List UInt8} {home : Loc} {K : AESKeys}
  {faulty lossy loose total : Prop} {P' : Type} {proto : Protocol P' Schema.Val} {put : Phase → P'}
  {sender : Side} {terms : Terms}

/-! ### The packet loop -/

/-- The head of the packet loop: the stream is at the position the receiver has come to. -/
structure Sending (quiet : List (SysEvent lib) → Prop) (inv : World → Prop) (put : Phase → P')
    (loose : Prop) (i : Nat) (F : List UInt8) (st : Stream × UInt64)
    (s : Endpoint (SysTape lib) P') : Prop where
  calm : quiet s.tape.log
  holds : inv s.tape.world
  pos : s.pos = put (Phase.rest (lib.md5.digest F) st.1.pos st.2)
  up : s.broken = false
  ino : st.1.ino = i
  pending : st.1.pending = []
  err : st.1.err = false
  left : loose ∨ st.1.pos + st.2.toNat ≤ F.length

/-- What the packet loop leaves. -/
def SentAll (quiet : List (SysEvent lib) → Prop) (inv : World → Prop) (put : Phase → P')
    (faulty lossy : Prop) (F : List UInt8) (r : Stream × Bool) (s : Endpoint (SysTape lib) P') :
    Prop :=
  (quiet s.tape.log ∧ inv s.tape.world) ∧ r.1.pending = [] ∧
    ((r.2 = true ∧ s.pos = put (.verdict (lib.md5.digest F)) ∧ s.broken = false) ∨
      (r.2 = false ∧ (lossy ∨ faulty)))

theorem sendRound_wp (carries : Carries proto put sender terms)
    (accepts : Accepts lib K loose terms F)
    (held : Holding env faulty quiet inv zip l i F home) (ordered : total → ¬ loose)
    {st : Stream × UInt64} {s : Endpoint (SysTape lib) P'}
    (sending : Sending quiet inv put loose i F st s) :
    Wp (endpointSem proto sender lossy (tapeSem env (sysSem lib faulty))) (Conforms proto put sender)
      total (sendRound K st) s
      (LoopPost total (Sending quiet inv put loose i F) (fun st _ => st.2.toNat) st.2.toNat
        (SentAll quiet inv put faulty lossy F)) := by
  obtain ⟨t, p, b⟩ := s
  obtain ⟨fp, size⟩ := st
  obtain ⟨calm, holds, rfl, rfl, rfl, pending, err, left⟩ := sending
  dsimp only at *
  unfold sendRound
  simp only [Prog.bind_eq, Prog.pure_eq]
  refine wp_calm_call held.steady calm holds (e := .remaining size) trivial
    ⟨trivial, _, _, rfl⟩ (fun _ t₁ calm holds _ => ?_)
  by_cases zero : size = 0
  · rw [if_pos zero, wp_ret]
    subst zero
    refine ⟨⟨calm, holds⟩, pending, Or.inl ⟨rfl, ?_, rfl⟩⟩
    rw [Phase.rest_zero]
  · rw [if_neg zero, Phase.rest_of_ne zero]
    refine wp_calm_call held.steady calm holds (e := .fread _ _) trivial
      (conforms_call trivial) (fun r t₂ calm holds answer => ?_)
    rcases answer with ⟨read, _⟩ | ⟨fault, bytes, short, _, rfl, _⟩
    · rw [(held.file _ holds).2.2, show ((F.drop fp.pos).take (min BUFFER_SIZE size.toNat)) =
        chunk F fp.pos size from rfl] at read
      subst read
      have length := length_chunk F fp.pos size
      have some_bytes : 0 < size.toNat := Nat.pos_of_ne_zero
        (fun none_left => zero (UInt64.toNat.inj none_left))
      have positive : 0 < BUFFER_SIZE := by decide
      have count := toNat_length_chunk F fp.pos size
      have after : (size - .ofNat (chunk F fp.pos size).length).toNat =
          size.toNat - (chunk F fp.pos size).length := by
        rw [UInt64.toNat_sub_of_le, count]
        refine UInt64.le_iff_toNat_le.mpr ?_
        omega
      dsimp only
      rw [if_neg (fun failed => Bool.false_ne_true (err.symm.trans failed.2))]
      obtain ⟨out, encrypted⟩ : ∃ out, encrypt lib (pad BUFFER_SIZE (chunk F fp.pos size)) K =
        some out := encrypt_isSome _ K
      rw [encrypted]
      dsimp only
      refine wp_transmit carries rfl
        (accepts.packet _ _ _ left (isPacket_encrypted encrypted)) conforms_send ?_ ?_
      · rw [if_pos rfl, wp_ret, Phase.next_data]
        refine ⟨⟨held.steady.sent calm _ _ _, holds, ?_, rfl, rfl, pending, err, ?_⟩,
          fun ask => ?_⟩
        · dsimp only
          rw [count]
        · refine left.imp id (fun inside => ?_)
          dsimp only
          omega
        · -- inside the file no read comes back empty
          have inside := left.resolve_left (ordered ask)
          dsimp only
          omega
      · intro lost
        rw [if_neg Bool.false_ne_true, wp_ret]
        exact ⟨⟨held.steady.sent calm _ _ _, holds⟩, pending, Or.inr ⟨rfl, Or.inl lost⟩⟩
    · rw [if_pos ⟨Nat.ne_of_lt short, rfl⟩, wp_ret]
      exact ⟨⟨calm, holds⟩, pending, Or.inr ⟨rfl, Or.inr fault⟩⟩

theorem sendLoop_wp (carries : Carries proto put sender terms)
    (accepts : Accepts lib K loose terms F)
    (held : Holding env faulty quiet inv zip l i F home) (ordered : total → ¬ loose)
    {st : Stream × UInt64} {s : Endpoint (SysTape lib) P'}
    (sending : Sending quiet inv put loose i F st s) :
    Wp (endpointSem proto sender lossy (tapeSem env (sysSem lib faulty))) (Conforms proto put sender)
      total (Prog.iterate (sendRound K) st) s (SentAll quiet inv put faulty lossy F) := by
  refine wp_iterate (Sending quiet inv put loose i F) (fun st _ => st.2.toNat) sending ?_ ?_
  · intro st s _
    exact ⟨trivial, trivial⟩
  · intro st s sending
    exact sendRound_wp carries accepts held ordered sending

/-! ### Sending one file -/

/-- Why the sender may fail: the connection, one of its calls, an offset that lies outside the file,
    or a file larger than an offset can be. -/
def Excuse (lossy faulty loose : Prop) (F : List UInt8) : Prop :=
  lossy ∨ faulty ∨ loose ∨ 2 ^ 63 ≤ F.length

theorem excuse_of_failure (why : lossy ∨ faulty) : Excuse lossy faulty loose F := by
  rcases why with lost | fault
  · exact Or.inl lost
  · exact Or.inr (Or.inl fault)

/-- What `filerail_sendfile` leaves. -/
def SentFile (quiet : List (SysEvent lib) → Prop) (inv : World → Prop) (put : Phase → P')
    (excuse : Prop) (F : List UInt8) (r : Int) (s : Endpoint (SysTape lib) P') : Prop :=
  (quiet s.tape.log ∧ inv s.tape.world) ∧
    ((r = 0 ∧ s.pos = put (.verdict (lib.md5.digest F)) ∧ s.broken = false) ∨ (r = -1 ∧ excuse))

/-- The end of a transfer closes what is open. -/
theorem transferCleanUp_calm_wp {guard : SysTape lib → Option (Sys lib.md5.Ctx) → Prop}
    (steady : Steady env quiet inv) (allowed : ∀ t e, Unwatched e → guard t e) {t : SysTape lib}
    (calm : quiet t.log) (holds : inv t.world) {fp : Option Stream}
    (closed : ∀ fp', fp = some fp' → fp'.pending = []) (status : Int) :
    Wp (tapeSem env (sysSem lib faulty)) guard total (transferCleanUp fp none status) t
      (fun r t' => (quiet t'.log ∧ inv t'.world) ∧ (r = status ∨ (r = -1 ∧ faulty))) := by
  have timeout : ∀ t : SysTape lib, quiet t.log → inv t.world →
      Wp (tapeSem env (sysSem lib faulty)) guard total
        (Prog.bind (setTimeout TIME_OUT) (fun ok => if ok then .ret status else .ret (-1))) t
        (fun r t' => (quiet t'.log ∧ inv t'.world) ∧ (r = status ∨ (r = -1 ∧ faulty))) := by
    intro t calm holds
    refine wp_calm steady calm holds (e := .setRcvTimeout _) trivial (allowed _ _ trivial)
      (fun r t' calm holds answer => ?_)
    rcases answer with ⟨rfl, _⟩ | ⟨fault, rfl, _⟩
    · rw [if_pos rfl, wp_ret]
      exact ⟨⟨calm, holds⟩, Or.inl rfl⟩
    · rw [if_neg Bool.false_ne_true, wp_ret]
      exact ⟨⟨calm, holds⟩, Or.inr ⟨rfl, fault⟩⟩
  unfold transferCleanUp closeIf
  simp only [Prog.bind_eq, Prog.pure_eq, Prog.ret_bind]
  cases fp with
  | none => exact timeout t calm holds
  | some fp =>
      exact wp_calm steady calm holds (e := .fclose fp) (closed fp rfl) (allowed _ _ trivial)
        (fun _ t' calm holds _ => timeout t' calm holds)

/-- A failed call or a lost connection: close what is open and return `-1`. -/
theorem giveUp_wp (held : Holding env faulty quiet inv zip l i F home)
    (why : Excuse lossy faulty loose F) {t : SysTape lib} (calm : quiet t.log) (holds : inv t.world)
    {fp : Option Stream} (closed : ∀ fp', fp = some fp' → fp'.pending = []) {p : P'} {b : Bool} :
    Wp (endpointSem proto sender lossy (tapeSem env (sysSem lib faulty))) (Conforms proto put sender)
      total (transferCleanUp fp none (-1)).loc ⟨t, p, b⟩
      (SentFile quiet inv put (Excuse lossy faulty loose F) F) := by
  apply wp_endpoint_loc
  refine wp_mono (transferCleanUp_calm_wp held.steady (fun _ _ => conforms_loc) calm holds closed _)
    ?_
  rintro r t' ⟨kept, rfl | ⟨rfl, _⟩⟩
  · exact ⟨kept, Or.inr ⟨rfl, why⟩⟩
  · exact ⟨kept, Or.inr ⟨rfl, why⟩⟩

/-- The part of `filerail_sendfile` behind the header. -/
theorem sendRest_wp (carries : Carries proto put sender terms)
    (accepts : Accepts lib K loose terms F)
    (held : Holding env faulty quiet inv zip l i F home) (ordered : total → ¬ loose)
    {t : SysTape lib} (calm : quiet t.log) (holds : inv t.world) {k : UInt64}
    (inside : loose ∨ k ≤ .ofNat F.length) :
    Wp (endpointSem proto sender lossy (tapeSem env (sysSem lib faulty))) (Conforms proto put sender)
      total
      (Prog.bind (Prog.loc (fseek (.opened i) k)) (fun fp =>
        match fp with
        | none => (transferCleanUp (some (.opened i)) none (-1)).loc
        | some fp =>
            Prog.bind (Prog.loc (setTimeout MAX_IO_TIME_OUT)) (fun ok =>
              if ok = true then
                Prog.bind (Prog.iterate (sendRound K) (fp, .ofNat F.length - k)) (fun out =>
                  (transferCleanUp (some out.1) none (if out.2 = true then 0 else -1)).loc)
              else (transferCleanUp (some fp) none (-1)).loc)))
      ⟨t, put (Phase.rest (lib.md5.digest F) k.toNat (.ofNat F.length - k)), false⟩
      (SentFile quiet inv put (Excuse lossy faulty loose F) F) := by
  have closed : ∀ fp, some (Stream.opened i) = some fp → fp.pending = [] := by
    rintro fp ⟨⟩
    rfl
  have length : (UInt64.ofNat F.length).toNat ≤ F.length := by
    rw [UInt64.toNat_ofNat']
    exact Nat.mod_le _ _
  refine wp_calm_call held.steady calm holds (e := .fseek _ _) trivial (conforms_call trivial)
    (fun r t₁ calm holds answer => ?_)
  rcases answer with does | ⟨fault, rfl, _⟩
  · rcases does with ⟨_, rfl, _⟩ | ⟨large, rfl, _⟩
    · dsimp only
      refine wp_calm_call held.steady calm holds (e := .setRcvTimeout _) trivial
        (conforms_call trivial) (fun r t₂ calm holds answer => ?_)
      have closed : ∀ fp, some { Stream.opened i with pos := k.toNat } = some fp →
          fp.pending = [] := by
        rintro fp ⟨⟩
        rfl
      rcases answer with ⟨rfl, _⟩ | ⟨fault, rfl, _⟩
      · rw [if_pos rfl]
        have sending : Sending quiet inv put loose i F
            ({ Stream.opened i with pos := k.toNat }, .ofNat F.length - k)
            ⟨t₂, put (Phase.rest (lib.md5.digest F) k.toNat (.ofNat F.length - k)), false⟩ := by
          refine ⟨calm, holds, rfl, rfl, rfl, rfl, rfl, inside.imp id (fun inside => ?_)⟩
          rw [UInt64.toNat_sub_of_le _ _ inside]
          have bound := UInt64.le_iff_toNat_le.mp inside
          dsimp only
          omega
        apply wp_bind
        refine wp_mono (sendLoop_wp carries accepts held ordered sending) ?_
        rintro ⟨fp, ok⟩ ⟨t₃, p, b⟩ ⟨⟨calm, holds⟩, pending, ⟨rfl, rfl, rfl⟩ | ⟨rfl, why⟩⟩
        · apply wp_endpoint_loc
          refine wp_mono (transferCleanUp_calm_wp held.steady (fun _ _ => conforms_loc) calm holds
            (by rintro _ ⟨⟩; exact pending) _) ?_
          rintro r t' ⟨kept, rfl | ⟨rfl, fault⟩⟩
          · exact ⟨kept, Or.inl ⟨rfl, rfl, rfl⟩⟩
          · exact ⟨kept, Or.inr ⟨rfl, excuse_of_failure (Or.inr fault)⟩⟩
        · exact giveUp_wp held (excuse_of_failure why) calm holds (by rintro _ ⟨⟩; exact pending)
      · rw [if_neg Bool.false_ne_true]
        exact giveUp_wp held (excuse_of_failure (Or.inr fault)) calm holds closed
    · refine giveUp_wp held (Or.inr (Or.inr (inside.imp id (fun inside => ?_)))) calm holds closed
      have bound := UInt64.le_iff_toNat_le.mp inside
      omega
  · exact giveUp_wp held (excuse_of_failure (Or.inr fault)) calm holds closed

theorem sendfile_wp (carries : Carries proto put sender terms)
    (accepts : Accepts lib K loose terms F)
    (held : Holding env faulty quiet inv zip l i F home) (ordered : total → ¬ loose)
    {t : SysTape lib} (calm : quiet t.log) (holds : inv t.world) {k : UInt64}
    (agreed : k = 0 ∨ terms.offset (lib.md5.digest F) k) :
    Wp (endpointSem proto sender lossy (tapeSem env (sysSem lib faulty))) (Conforms proto put sender)
      total (sendfile zip K k) ⟨t, put (.header (lib.md5.digest F) k), false⟩
      (SentFile quiet inv put (Excuse lossy faulty loose F) F) := by
  have inside : loose ∨ k ≤ .ofNat F.length := by
    rcases agreed with rfl | may
    · exact Or.inr (UInt64.zero_le)
    · exact accepts.offset k may
  have closed : ∀ fp, some (Stream.opened i) = some fp → fp.pending = [] := by
    rintro fp ⟨⟩
    rfl
  unfold sendfile
  simp only [Prog.bind_eq]
  refine wp_calm_call held.steady calm holds (e := .fopen zip .rb) (by simp [Reads])
    (conforms_call trivial) (fun r t₁ calm holds answer => ?_)
  obtain ⟨target, node, data⟩ := held.file _ holds
  rcases answer with does | ⟨fault, rfl, _⟩
  · have opened : r = some (.opened i) := by
      rcases does with ⟨j, here, rfl, _⟩ | ⟨_, other, _⟩
      · rw [target, node] at here
        cases here
        rfl
      · exact absurd (target.symm ▸ node) (other i)
    subst opened
    dsimp only
    refine wp_calm_call held.steady calm holds (e := .stat zip) trivial
      (conforms_call trivial) (fun r t₂ calm holds answer => ?_)
    obtain ⟨target, node, data⟩ := held.file _ holds
    rcases answer with ⟨found, _⟩ | ⟨fault, rfl, _⟩
    · have known : r = some ⟨.reg, F.length⟩ := by
        rw [target] at found
        rw [(statOf_file node).mp found, data]
      subst known
      dsimp only
      refine wp_transmit carries rfl (accepts.size k agreed) conforms_send ?_ ?_
      · rw [if_pos rfl, Phase.next_header]
        exact sendRest_wp (t := t₂.record _ _) carries accepts held ordered
          (held.steady.sent calm _ _ _) holds inside
      · intro lost
        rw [if_neg Bool.false_ne_true]
        exact giveUp_wp (t := t₂.record _ _) held (excuse_of_failure (Or.inl lost)) (held.steady.sent calm _ _ _) holds
          closed
    · exact giveUp_wp held (excuse_of_failure (Or.inr fault)) calm holds closed
  · exact giveUp_wp held (excuse_of_failure (Or.inr fault)) calm holds (by simp)

end Sending

end Filerail
