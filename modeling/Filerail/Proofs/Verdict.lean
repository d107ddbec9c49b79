/-
Module: Filerail.Proofs.Verdict
Layer: Proofs
Purpose: The end of a delivery: the receiver hashes what it has, answers, extracts the archive and
  removes the partial file and the checkpoint. `recvfileHandler_wp` puts the whole receiving handler
  together.
Imports: Filerail.Proofs.Receiver
Main exports: Delivery.cleanFiles_wp, Delivery.Concluded, Delivery.finishReceiving_wp,
  Delivery.recvfileHandler_wp
-/
import Filerail.Proofs.Receiver

namespace Filerail

open FileStore ProgramLogic

variable {lib : Lib}

/-- What extracting the verified archive leaves in the view of a session, whether it succeeds or
    not. -/
theorem View.extract {site : Site} {h : Hash} {fs₀ : Store Name UInt8} {w w' : World}
    {X : List UInt8} {c : Option (List UInt8)} {ok : Bool}
    (view : View site h (site.Lands lib h fs₀) fs₀ w.fs (some X) c) (avoids : site.Avoids lib h)
    (cwd : w.cwd = site.dir) (verified : lib.md5.digest X = h)
    (does : Does lib w (.zipExtract (site.resource_name ++ dotZip) site.resource_dir) ok w') :
    View site h (site.Lands lib h fs₀) fs₀ w'.fs (some X) c ∧ w'.cwd = site.dir := by
  have target := view.ready.target_zip cwd
  have into : w.target site.resource_dir = site.exdir := by
    rw [World.target, World.loc, cwd]
    exact Store.follow_eq_self view.ready.exdir _
  have unpacked : ∀ es fs', lib.zip.entries X = some es →
      w.fs.Unpacks fs' (placements site.exdir es) →
      View site h (site.Lands lib h fs₀) fs₀ fs' (some X) c :=
    fun es fs' read unpacks => view.unpack avoids verified read unpacks
  rcases does with ⟨bytes, es, fs', content, read, all, _, rfl⟩ |
    ⟨bytes, es, fs', content, read, part, _, rfl⟩ | ⟨_, _, rfl⟩
  · rw [target, view.data] at content
    cases content
    rw [into] at all
    exact ⟨unpacked es fs' read (Store.unpacks_extract all), cwd⟩
  · rw [target, view.data] at content
    cases content
    rw [into] at part
    exact ⟨unpacked es fs' read part, cwd⟩
  · exact ⟨view, cwd⟩

namespace Delivery

variable {v : Delivery lib} {t : SysTape lib}

/-! ### Removing the files of a session -/

section Cleaning

variable {total : Prop} {guard : SysTape lib → Option (Sys lib.md5.Ctx) → Prop}

/-- The log only grows, and the session's files are `d` and `c`. -/
structure Later (v : Delivery lib) (log : List (SysEvent lib)) (cwd : Loc)
    (d c : Option (List UInt8)) (t : SysTape lib) : Prop extends v.Sees cwd d c t where
  log : log <:+ t.log

theorem rmData_wp (watch : v.Watch guard) {X : List UInt8} {c : Option (List UInt8)}
    (seen : v.Sees v.site.cwd (some X) c t) (files : Files v.site v.F v.data₀ v.ckpt₀ (some X) c) :
    Wp (Alone lib) guard total (rm v.site.resource_path) t
      (fun r t' => r = true ∧ v.Later t.log v.site.cwd none c t') := by
  obtain ⟨i, file, _⟩ := seen.data_file rfl
  obtain ⟨fs', gone⟩ := Store.unlink_isSome file (by simp)
  have names := file
  have goes := gone
  rw [← seen.loc_data] at names goes
  have again : ∀ t' : SysTape lib, t'.world = t.world → v.Sees v.site.cwd (some X) c t' :=
    fun t' same => ⟨same ▸ seen.view, same ▸ seen.cwd⟩
  refine wp_mono (rm_file_wp names goes (watch _ _ _ _ _ seen files trivial)
    (fun t' same => watch _ _ _ _ _ (again t' same) files trivial)) ?_
  rintro r t' ⟨rfl, world, log⟩
  refine ⟨rfl, ⟨?_, ?_⟩, log⟩
  · rw [world]
    exact seen.view.unlinkData gone
  · rw [world]
    exact seen.cwd

theorem rmCkpt_wp (watch : v.Watch guard) {c : Option (List UInt8)}
    (seen : v.Sees v.site.cwd none c t) (files : Files v.site v.F v.data₀ v.ckpt₀ none c) :
    Wp (Alone lib) guard total (rm (v.site.ckpt_resource_path v.hash)) t
      (fun _ t' => v.Later t.log v.site.cwd none none t') := by
  cases c with
  | none =>
      have absent := seen.ckpt_absent rfl
      rw [← seen.loc_ckpt] at absent
      refine wp_mono (rm_absent_wp absent (watch _ _ _ _ _ seen files trivial)) ?_
      rintro r t' ⟨_, world, log⟩
      exact ⟨⟨world ▸ seen.view, world ▸ seen.cwd⟩, log⟩
  | some img =>
      obtain ⟨i, file, _⟩ := seen.ckpt_file rfl
      obtain ⟨fs', gone⟩ := Store.unlink_isSome file (by simp)
      have names := file
      have goes := gone
      rw [← seen.loc_ckpt] at names goes
      have again : ∀ t' : SysTape lib, t'.world = t.world → v.Sees v.site.cwd none (some img) t' :=
        fun t' same => ⟨same ▸ seen.view, same ▸ seen.cwd⟩
      refine wp_mono (rm_file_wp names goes (watch _ _ _ _ _ seen files trivial)
        (fun t' same => watch _ _ _ _ _ (again t' same) files trivial)) ?_
      rintro r t' ⟨_, world, log⟩
      refine ⟨⟨?_, ?_⟩, log⟩
      · rw [world]
        exact seen.view.unlinkCkpt gone
      · rw [world]
        exact seen.cwd

theorem receiverCleanUp_wp (watch : v.Watch guard) {cwd : Loc} {d c : Option (List UInt8)}
    (seen : v.Sees cwd d c t) (files : Files v.site v.F v.data₀ v.ckpt₀ d c) {fp : Option Stream}
    (closed : ∀ fp', fp = some fp' → fp'.pending = []) (status : Int) :
    Wp (Alone lib) guard total (receiverCleanUp fp status) t
      (fun r t' => r = status ∧ v.Later t.log cwd d c t') := by
  unfold receiverCleanUp closeIf
  simp only [Prog.bind_eq, Prog.pure_eq]
  cases fp with
  | none =>
      rw [Prog.ret_bind, wp_ret]
      exact ⟨rfl, seen, List.suffix_rfl⟩
  | some fp =>
      refine wp_only_bind (only_fclose (closed fp rfl)) (watch _ _ _ _ _ seen files trivial) ?_
      rw [wp_ret]
      exact ⟨rfl, ⟨seen.view, seen.cwd⟩, List.suffix_cons _ _⟩

/-- `clean_files` leaves neither the partial file nor the checkpoint. -/
theorem cleanFiles_wp (watch : v.Watch guard) {cwd : Loc} {k : UInt64} {B : List UInt8}
    {c : Option (List UInt8)} (start : Start v.site v.data₀ v.ckpt₀ k B)
    (seen : v.Sees cwd (some (received B k.toNat v.F v.F.length)) c t)
    (saved : Saved v.site v.ckpt₀ k.toNat v.F.length c) {fp : Option Stream}
    (closed : ∀ fp', fp = some fp' → fp'.pending = []) (status : Int) :
    Wp (Alone lib) guard total (cleanFiles fp status (render v.site.cwd) v.site.resource_path
        (v.site.ckpt_resource_path v.hash)) t
      (fun _ t' => v.Later t.log v.site.cwd none none t') := by
  have files : Files v.site v.F v.data₀ v.ckpt₀
      (some (received B k.toNat v.F v.F.length)) c :=
    .writing start (offset_inside start) (Nat.le_refl _) (Nat.le_refl _) saved
  have home : t.world.target (render v.site.cwd) = v.site.cwd := by
    rw [World.target, World.loc, resolve_render]
    exact Store.follow_eq_self (fun l link => by
      rw [seen.view.ready.cwd] at link
      cases link) _
  unfold cleanFiles
  simp only [Prog.bind_eq]
  refine wp_only_bind (only_chdir (home.symm ▸ seen.view.ready.cwd))
    (watch _ _ _ _ _ seen files trivial) ?_
  rw [if_pos rfl]
  have seen₁ : v.Sees v.site.cwd (some (received B k.toNat v.F v.F.length)) c
      (Tape.after t (.chdir (render v.site.cwd)) true
        { t.world with cwd := t.world.target (render v.site.cwd) }) :=
    ⟨seen.view, home⟩
  apply wp_bind
  refine wp_mono (rmData_wp watch seen₁ files) ?_
  rintro _ t₂ ⟨rfl, seen₂⟩
  rw [if_pos rfl]
  have log₂ : t.log <:+ t₂.log := (List.suffix_cons _ _).trans seen₂.log
  apply wp_bind
  refine wp_mono (rmCkpt_wp watch seen₂.toSees (.removed start saved)) ?_
  rintro r t₃ seen₃
  have log₃ : t.log <:+ t₃.log := log₂.trans seen₃.log
  split
  · refine wp_mono (receiverCleanUp_wp watch seen₃.toSees .clean closed _) ?_
    rintro _ t₄ ⟨_, seen₄⟩
    exact ⟨seen₄.toSees, log₃.trans seen₄.log⟩
  · refine wp_mono (receiverCleanUp_wp watch seen₃.toSees .clean closed _) ?_
    rintro _ t₄ ⟨_, seen₄⟩
    exact ⟨seen₄.toSees, log₃.trans seen₄.log⟩

end Cleaning

/-! ### The verdict -/

section Finishing

variable {lossy total : Prop} {P' : Type} {proto : Protocol P' Schema.Val} {put : Phase → P'}
  {sender : Side} {k : UInt64} {B : List UInt8} {c : Option (List UInt8)}

/-- How a delivery ends whose connection stayed up: with the right hash the archive was extracted and,
    if that succeeded, the files of the session removed; with a wrong one they were just removed. -/
def Concluded (v : Delivery lib) (put : Phase → P') (s : Endpoint (SysTape lib) P') : Prop :=
  s.broken = false ∧ ∃ k B, Start v.site v.data₀ v.ckpt₀ k B ∧
    ((lib.md5.digest (received B k.toNat v.F v.F.length) = v.hash ∧
        s.pos = put (.done v.hash Response.ok.code) ∧
        ∃ path dir ok, (⟨.loc (.zipExtract path dir), ok⟩ : SysEvent lib) ∈ s.tape.log ∧
          (ok = true → v.Sees v.site.cwd none none s.tape)) ∨
      (lib.md5.digest (received B k.toNat v.F v.F.length) ≠ v.hash ∧
        s.pos = put (.done v.hash Response.noIntegrity.code) ∧
        v.Sees v.site.cwd none none s.tape))

/-- How the handler returns: with its files in order, and the delivery concluded unless the connection
    was lost. -/
def Outcome (v : Delivery lib) (put : Phase → P') (lossy : Prop) (_ : Int)
    (s : Endpoint (SysTape lib) P') : Prop :=
  v.Stage s.tape ∧ (lossy ∨ v.Concluded put s)

/-- In the resource directory the name of the archive leads to the received file. -/
theorem target_zip {d : Option (List UInt8)} (seen : v.Sees v.site.dir d c t) :
    t.world.target (v.site.resource_name ++ dotZip) = v.site.data :=
  seen.view.ready.target_zip seen.cwd

/-- The hash of the received file, computed in the resource directory. -/
theorem md5_received_wp {guard : SysTape lib → Option (Sys lib.md5.Ctx) → Prop}
    (watch : v.Watch guard) {X : List UInt8} (seen : v.Sees v.site.dir (some X) c t)
    (files : Files v.site v.F v.data₀ v.ckpt₀ (some X) c)
    (final : ∀ (t' : SysTape lib) ctx, t'.world = t.world → guard t' (some (.md5Final ctx))) :
    Wp (Alone lib) guard total (md5 (v.site.resource_name ++ dotZip)) t
      (fun r t' => r = some (lib.md5.digest X) ∧ t'.world = t.world) := by
  obtain ⟨i, file, content⟩ := seen.data_file rfl
  have target := target_zip seen
  have calls : ∀ (t' : SysTape lib) e, True → t'.world = t.world → Peeks e →
      (∀ ctx, e = some (.md5Final ctx) → lib.md5.final ctx = lib.md5.digest X) → guard t' e := by
    intro t' e _ same peeks _
    have seen' : v.Sees v.site.dir (some X) c t' := ⟨same ▸ seen.view, same ▸ seen.cwd⟩
    cases e with
    | none => exact watch _ _ _ _ _ seen' files trivial
    | some e =>
        cases e with
        | md5Final ctx => exact final t' ctx same
        | zipExtract _ _ => exact peeks.elim
        | _ => exact watch _ _ _ _ _ seen' files trivial
  refine wp_mono (md5_wp (steady_still (· = t.world))
    (by rintro _ rfl; exact ⟨target, file, content⟩) calls trivial rfl) ?_
  rintro r t' ⟨⟨_, same⟩, digest, answered⟩
  cases r with
  | none => exact absurd rfl (answered id)
  | some h => exact ⟨congrArg some (digest h rfl), same⟩

/-- A lost connection: the handler closes the checkpoint and returns. -/
theorem abandon_wp (lost : lossy) {cwd : Loc} {d : Option (List UInt8)} (seen : v.Sees cwd d c t)
    (files : Files v.site v.F v.data₀ v.ckpt₀ d c) {fp : Option Stream}
    (closed : ∀ fp', fp = some fp' → fp'.pending = []) (status : Int) {p : P'} {b : Bool} :
    Wp (endpointSem proto sender.other lossy (Alone lib)) (v.guard proto sender.other) total
      (receiverCleanUp fp status).loc ⟨t, p, b⟩ (v.Outcome put lossy) := by
  apply wp_endpoint_loc
  refine wp_mono (receiverCleanUp_wp v.watch_guard seen files closed status) ?_
  rintro r t' ⟨_, seen'⟩
  exact ⟨⟨_, _, _, seen'.toSees, files⟩, Or.inl lost⟩

/-- What extracting the verified archive leaves, whether it succeeds or not. -/
theorem extract_view {X : List UInt8} {w' : World} {ok : Bool}
    (seen : v.Sees v.site.dir (some X) c t) (verified : lib.md5.digest X = v.hash)
    (does : Does lib t.world (.zipExtract (v.site.resource_name ++ dotZip) v.site.resource_dir) ok
      w') :
    View v.site v.hash (v.site.Lands lib v.hash v.found) v.found w'.fs (some X) c ∧
      w'.cwd = v.site.dir :=
  seen.view.extract v.avoids seen.cwd verified does

theorem finishReceiving_wp (carries : Carries proto put sender v.terms)
    (start : Start v.site v.data₀ v.ckpt₀ k B)
    (seen : v.Sees v.site.cwd (some (received B k.toNat v.F v.F.length)) c t)
    (saved : Saved v.site v.ckpt₀ k.toNat v.F.length c) {fp : Option Stream}
    (closed : ∀ fp', fp = some fp' → fp'.pending = []) (status : Int) :
    Wp (endpointSem proto sender.other lossy (Alone lib)) (v.guard proto sender.other) total
      (finishReceiving fp status v.hash (render v.site.cwd) v.site.resource_name v.site.resource_dir
        v.site.resource_path (v.site.ckpt_resource_path v.hash))
      ⟨t, put (.verdict v.hash), false⟩ (v.Outcome put lossy) := by
  obtain ⟨X, whole⟩ : ∃ X, X = received B k.toNat v.F v.F.length := ⟨_, rfl⟩
  rw [← whole] at seen
  have files : Files v.site v.F v.data₀ v.ckpt₀ (some X) c :=
    whole ▸ .writing start (offset_inside start) (Nat.le_refl _) (Nat.le_refl _) saved
  have complete : ∀ {t' : SysTape lib} {cwd}, v.Sees cwd (some X) c t' → v.Complete t' X :=
    fun seen' => ⟨seen'.view.data, k, B, start, whole⟩
  have home : t.world.target v.site.resource_dir = v.site.dir := by
    rw [World.target, World.loc, seen.cwd]
    exact Store.follow_eq_self (fun l link => by
      rw [show resolve v.site.cwd v.site.resource_dir = v.site.dir from rfl,
        seen.view.ready.dir] at link
      cases link) _
  unfold finishReceiving
  simp only [Prog.bind_eq]
  refine wp_only_call_bind (only_chdir (home.symm ▸ seen.view.ready.dir))
    (guard_call seen files trivial) ?_
  rw [if_pos rfl]
  have seen₁ : v.Sees v.site.dir (some X) c (Tape.after t (.chdir v.site.resource_dir) true
      { t.world with cwd := t.world.target v.site.resource_dir }) :=
    ⟨seen.view, home⟩
  apply wp_loc_bind
  refine wp_mono (md5_received_wp v.watch_guard seen₁ files ?_) ?_
  · intro t' ctx same
    have seen' : v.Sees v.site.dir (some X) c t' := ⟨same ▸ seen₁.view, same ▸ seen₁.cwd⟩
    exact ⟨trivial, ⟨_, _, _, seen', files⟩, X, complete seen'⟩
  rintro _ t₂ ⟨rfl, same⟩
  have seen₂ : v.Sees v.site.dir (some X) c t₂ := ⟨same ▸ seen₁.view, same ▸ seen₁.cwd⟩
  dsimp only
  by_cases verified : lib.md5.digest X = v.hash
  · rw [if_pos verified]
    refine wp_transmit carries rfl (Or.inl rfl) ?_ ?_ ?_
    · intro obeys
      exact ⟨obeys, ⟨_, _, _, seen₂, files⟩, Or.inr ⟨X, complete seen₂, (if_pos verified).symm⟩⟩
    · rw [if_pos rfl, Phase.next_verdict]
      have seen₃ := seen₂.record (.send .code Response.ok.code) true
      refine wp_does_call_bind ?_ (fun _ => does_answers _ _ (by simp)) (fun ok w' does => ?_)
      · exact ⟨trivial, ⟨_, _, _, seen₃, files⟩, target_zip seen₃, X, complete seen₃, verified⟩
      · obtain ⟨view₄, cwd₄⟩ := extract_view seen₃ verified does
        obtain ⟨t₄, same₄⟩ : ∃ t₄, t₄ = Tape.after (t₂.record (.send .code Response.ok.code) true)
            (.zipExtract (v.site.resource_name ++ dotZip) v.site.resource_dir) ok w' := ⟨_, rfl⟩
        have seen₄ : v.Sees v.site.dir (some X) c t₄ := same₄ ▸ ⟨view₄, cwd₄⟩
        have extracted : (⟨.loc (.zipExtract (v.site.resource_name ++ dotZip) v.site.resource_dir),
            ok⟩ : SysEvent lib) ∈ t₄.log := same₄ ▸ List.mem_cons_self
        rw [← same₄]
        cases ok with
        | true =>
            rw [if_pos rfl]
            apply wp_endpoint_loc
            rw [whole] at seen₄ verified
            refine wp_mono (cleanFiles_wp v.watch_guard start seen₄ saved closed status) ?_
            intro r t₅ seen₅
            exact ⟨⟨_, _, _, seen₅.toSees, .clean⟩, Or.inr ⟨rfl, k, B, start,
              Or.inl ⟨verified, rfl, _, _, true, seen₅.log.subset extracted,
                fun _ => seen₅.toSees⟩⟩⟩
        | false =>
            rw [if_neg Bool.false_ne_true]
            apply wp_endpoint_loc
            refine wp_mono (receiverCleanUp_wp v.watch_guard seen₄ files closed _) ?_
            rintro r t₅ ⟨_, seen₅⟩
            refine ⟨⟨_, _, _, seen₅.toSees, files⟩, Or.inr ⟨rfl, k, B, start,
              Or.inl ⟨whole ▸ verified, rfl, _, _, false, seen₅.log.subset extracted, ?_⟩⟩⟩
            intro impossible
            cases impossible
    · intro lost
      rw [if_neg Bool.false_ne_true]
      exact abandon_wp lost (seen₂.record _ _) files closed _
  · rw [if_neg verified]
    refine wp_transmit carries rfl (Or.inr rfl) ?_ ?_ ?_
    · intro obeys
      exact ⟨obeys, ⟨_, _, _, seen₂, files⟩, Or.inr ⟨X, complete seen₂, (if_neg verified).symm⟩⟩
    · rw [if_pos rfl, Phase.next_verdict]
      apply wp_endpoint_loc
      have seen₃ := seen₂.record (.send .code Response.noIntegrity.code) true
      rw [whole] at seen₃ verified
      refine wp_mono (cleanFiles_wp v.watch_guard start seen₃ saved closed status) ?_
      intro r t₄ seen₄
      exact ⟨⟨_, _, _, seen₄.toSees, .clean⟩,
        Or.inr ⟨rfl, k, B, start, Or.inr ⟨verified, rfl, seen₄.toSees⟩⟩⟩
    · intro lost
      rw [if_neg Bool.false_ne_true]
      exact abandon_wp lost (seen₂.record _ _) files closed _

variable (put sender) in
/-- The receiving handler keeps its files in order, says nothing the protocol does not foresee,
    always comes to an end when it is asked to, and concludes the delivery unless the connection is
    lost. -/
theorem recvfileHandler_wp (carries : Carries proto put sender v.terms)
    (world : t.world = ⟨v.found, v.site.cwd⟩) (unhashed : Unhashed t.log) :
    Wp (endpointSem proto sender.other lossy (Alone lib)) (v.guard proto sender.other) total
      (recvfileHandler v.site.mem v.site.resource_name v.site.resource_dir v.site.resource_path
        v.site.ckpt_path v.site.K) ⟨t, put .hash, false⟩ (v.Outcome put lossy) := by
  have seen : v.At v.site.cwd v.data₀ v.ckpt₀ t := by
    refine ⟨⟨?_, ?_⟩, unhashed⟩
    · rw [world]
      exact View.start v.ready
    · rw [world]
  unfold recvfileHandler
  simp only [Prog.bind_eq]
  refine wp_look v seen .untouched trivial only_getcwd (fun t₁ same seen => ?_)
  rw [show t.world.cwd = v.site.cwd by rw [world]]
  dsimp only
  refine wp_receive (p := .hash) (k := .hash) carries (by rw [Side.other_other]; rfl) rfl
    ?_ ?_ ?_ ?_
  · intro obeys
    exact ⟨obeys, ⟨_, _, _, seen.toSees, .untouched⟩, trivial⟩
  · intro _
    exact ⟨v.hash, rfl⟩
  · rintro h rfl
    have seen := seen.record (a := .recv .hash) (by simp) (some v.hash)
    apply wp_bind
    refine wp_mono (negotiate_wp carries seen) ?_
    rintro ⟨fp, status, offset⟩ ⟨t₂, p, b⟩ ⟨seen, closed, agreed | ⟨rfl, lost⟩⟩
    · obtain ⟨k, B, rfl, start, rfl, rfl⟩ := agreed
      dsimp only
      apply wp_bind
      refine wp_mono (recvfile_wp carries start seen) ?_
      rintro status' ⟨t₃, p, b⟩ (whole | down)
      · obtain ⟨rfl, rfl, rfl, c, seen, saved⟩ := whole
        rw [if_neg (by decide)]
        exact finishReceiving_wp carries start seen.toSees saved closed status
      · obtain ⟨rfl, lost, d, c, seen, files⟩ := down
        rw [if_pos rfl]
        exact abandon_wp lost seen.toSees files closed _
    · exact abandon_wp lost seen.toSees .untouched closed _
  · intro lost
    exact abandon_wp lost (seen.record (by simp) _).toSees .untouched (by simp) _

end Finishing

end Delivery

end Filerail
