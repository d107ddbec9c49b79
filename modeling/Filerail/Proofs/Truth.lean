/-
Module: Filerail.Proofs.Truth
Layer: Proofs
Purpose: What the return value of the receiving handler says. One status variable goes through the
  search for a checkpoint, the transfer and the removal of the files, and it is not set where the hash
  differs, nor reset where a restart follows a checkpoint that could not be read. `Straight` names the
  runs that keep off those branches; in them the handler returns `0` exactly when the hash was equal,
  the archive extracted, and both files removed.
Imports: Filerail.Proofs.Packets
Main exports: Mark, marks, Completed, Straight, return_truthful
-/
import Filerail.Proofs.Packets

namespace Filerail

open FileStore ProgramLogic

variable {lib : Lib}

/-! ### What the log of a call says -/

/-- The successes a return value is about. -/
inductive Mark where
  | extracted
  | removed (path : CStr)
deriving DecidableEq

def markOf : SysEvent lib → Option Mark
  | ⟨.loc (.zipExtract _ _), true⟩ => some .extracted
  | ⟨.loc (.unlink path), true⟩ => some (.removed path)
  | ⟨.loc (.rmdir path), true⟩ => some (.removed path)
  | _ => none

def marks (log : List (SysEvent lib)) : List Mark :=
  log.filterMap markOf

/-- The hashes the peer has advertised. -/
def hashes (log : List (SysEvent lib)) : List Hash :=
  log.filterMap (fun
    | ⟨.recv .hash, h⟩ => h
    | _ => none)

theorem mem_hashes {log : List (SysEvent lib)} {h : Hash}
    (received : (⟨.recv .hash, some h⟩ : SysEvent lib) ∈ log) : h ∈ hashes log :=
  List.mem_filterMap.mpr ⟨_, received, rfl⟩

/-- In this call the hash was verified equal, the archive extracted, and the zip and the checkpoint
    removed. -/
structure Completed (mem : Memory) (resource_path ckpt_path : CStr) (log : List (SysEvent lib)) :
    Prop where
  verified : ∃ h ∈ hashes log, Computed h log ∧
    .removed (checkpointPath mem ckpt_path h) ∈ marks log
  extracted : .extracted ∈ marks log
  removed : .removed resource_path ∈ marks log

/-- Whether an operation keeps off the branches with a wrong status: the peer answers an offer to resume
    with OK or ABORT, the hash is equal, a checkpoint that is there can be opened and read in full and
    its partial file is there, and the files to be removed are no special files. -/
def keeps (mem : Memory) (resource_path ckpt_path : CStr) (h : Hash) : SysEvent lib → Bool
  | ⟨.loc .protocolNotFollowed, _⟩ => false
  | ⟨.loc (.md5Final _), (computed : Hash)⟩ => computed = h
  | ⟨.loc (.fopen path .rb), none⟩ => path ≠ checkpointPath mem ckpt_path h
  | ⟨.loc (.fread _ n), (bytes, _)⟩ => n = sizeofCheckpoint → bytes.length = sizeofCheckpoint
  | ⟨.loc (.stat path), none⟩ => path ≠ resource_path
  | ⟨.loc (.lstat path), some st⟩ =>
      path = resource_path ∨ path = checkpointPath mem ckpt_path h → st.st_mode ≠ .other
  | _ => true

/-- All operations do, and the zip is neither the checkpoint nor a directory it is in. -/
def Straight (mem : Memory) (resource_path ckpt_path : CStr) (log : List (SysEvent lib)) : Prop :=
  ∀ h ∈ hashes log, ¬ Within resource_path (checkpointPath mem ckpt_path h) ∧
    ∀ event ∈ log, keeps mem resource_path ckpt_path h event = true

instance (mem : Memory) (resource_path ckpt_path : CStr) (log : List (SysEvent lib)) :
    Decidable (Straight mem resource_path ckpt_path log) :=
  List.decidableBAll _ _

/-- The return value is `0` exactly when all was done. -/
def Truthful (mem : Memory) (resource_path ckpt_path : CStr) (r : Int) (t : SysTape lib) : Prop :=
  Straight mem resource_path ckpt_path t.log → (r = 0 ↔ Completed mem resource_path ckpt_path t.log)

section Log

variable {mem : Memory} {resource_path ckpt_path : CStr} {log log' : List (SysEvent lib)} {h : Hash}

theorem hashes_of_subset (sub : log ⊆ log') (received : h ∈ hashes log) : h ∈ hashes log' := by
  obtain ⟨event, here, same⟩ := List.mem_filterMap.mp received
  exact List.mem_filterMap.mpr ⟨event, sub here, same⟩

theorem marks_of_subset {m : Mark} (sub : log ⊆ log') (marked : m ∈ marks log) : m ∈ marks log' := by
  obtain ⟨event, here, same⟩ := List.mem_filterMap.mp marked
  exact List.mem_filterMap.mpr ⟨event, sub here, same⟩

theorem Straight.keeps (straight : Straight mem resource_path ckpt_path log) (received : h ∈ hashes log)
    {event : SysEvent lib} (here : event ∈ log) : keeps mem resource_path ckpt_path h event = true :=
  (straight h received).2 event here

theorem Straight.mono (straight : Straight mem resource_path ckpt_path log') (sub : log ⊆ log') :
    Straight mem resource_path ckpt_path log := by
  intro h received
  obtain ⟨apart, keeps⟩ := straight h (hashes_of_subset sub received)
  exact ⟨apart, fun event here => keeps event (sub here)⟩

/-- The hash that was computed is the one that was received. -/
theorem Straight.equal (straight : Straight mem resource_path ckpt_path log) (received : h ∈ hashes log)
    {h' : Hash} (computed : Computed h' log) : h' = h := by
  obtain ⟨ctx, here⟩ := computed
  exact of_decide_eq_true ((straight h received).2 _ here)

theorem Completed.checkpoint (completed : Completed mem resource_path ckpt_path log)
    (straight : Straight mem resource_path ckpt_path log) (received : h ∈ hashes log) :
    .removed (checkpointPath mem ckpt_path h) ∈ marks log := by
  obtain ⟨h', _, computed, removed⟩ := completed.verified
  rw [← straight.equal received computed]
  exact removed

end Log

/-! ### Stretches of a run by the marks they may leave -/

/-- The log has grown, and with it the marks by those that `may` come. -/
structure Onward (may : Mark → Prop) (t t' : SysTape lib) : Prop where
  grows : t.log ⊆ t'.log
  adds : ∀ m ∈ marks t'.log, m ∈ marks t.log ∨ may m

/-- Operations that leave no other marks. -/
def Leaves (may : Mark → Prop) : Act (Sys lib.md5.Ctx) Schema.Val → Prop
  | .loc (.zipExtract _ _) => may .extracted
  | .loc (.unlink path) => may (.removed path)
  | .loc (.rmdir path) => may (.removed path)
  | _ => True

/-- No mark at all. -/
def noMark : Mark → Prop := fun _ => False

section Onward

variable {may may' : Mark → Prop} {t t' t'' : SysTape lib}

theorem Leaves.mark {a : Act (Sys lib.md5.Ctx) Schema.Val} (leaves : Leaves may a)
    {r : a.Answer Sys.Resp} {m : Mark} (here : markOf (⟨a, r⟩ : SysEvent lib) = some m) : may m := by
  unfold markOf at here
  split at here
  · cases here
    rename_i same
    cases same
    exact leaves
  · cases here
    rename_i same
    cases same
    exact leaves
  · cases here
    rename_i same
    cases same
    exact leaves
  · cases here

theorem Onward.refl (t : SysTape lib) : Onward may t t where
  grows := List.Subset.refl _
  adds _ here := Or.inl here

theorem Onward.trans (first : Onward may t t') (second : Onward may t' t'') : Onward may t t'' where
  grows := List.Subset.trans first.grows second.grows
  adds m here := (second.adds m here).elim (first.adds m) Or.inr

theorem Onward.mono (onward : Onward may t t') (weaker : ∀ m, may m → may' m) : Onward may' t t' where
  grows := onward.grows
  adds m here := (onward.adds m here).imp_right (weaker m)

theorem Onward.enter {event : SysEvent lib} (leaves : ∀ m, markOf event = some m → may m)
    (same : t'.log = event :: t.log) : Onward may t t' where
  grows := by
    rw [same]
    exact List.subset_cons_self _ _
  adds m here := by
    rw [same] at here
    obtain ⟨before, member, marked⟩ := List.mem_filterMap.mp here
    cases List.mem_cons.mp member with
    | inl now =>
        rw [now] at marked
        exact Or.inr (leaves m marked)
    | inr earlier => exact Or.inl (List.mem_filterMap.mpr ⟨before, earlier, marked⟩)

/-- What is not marked, and may not be, stays unmarked. -/
theorem Onward.missing (onward : Onward may t t') {m : Mark} (missing : m ∉ marks t.log)
    (not : ¬ may m) : m ∉ marks t'.log :=
  fun here => (onward.adds m here).elim missing not

theorem Onward.unmarked (onward : Onward noMark t t') (unmarked : marks t.log = []) :
    marks t'.log = [] := by
  rw [List.eq_nil_iff_forall_not_mem]
  intro m
  apply onward.missing _ id
  rw [unmarked]
  exact List.not_mem_nil

variable {env : SysEnv lib} {faulty : Prop} {α : Type}

theorem wp_leaves {p : P lib α} (calls : p.Calls (Leaves may)) :
    Wp (soloSem (tapeSem env (sysSem lib faulty))) (fun _ _ => True) False p t
      (fun _ t' => Onward may t t') := by
  apply wp_calls calls (Onward may t) (Onward.refl t)
  · intro t' a r t'' leaves so_far answer
    exact so_far.trans (.enter (fun _ => leaves.mark) (solo_logs answer))
  · intros
    trivial
  · intros
    trivial

theorem wp_loc_leaves {p : L lib α} (calls : p.Calls (fun e => Leaves may (.loc e))) :
    Wp (tapeSem env (sysSem lib faulty)) (fun _ _ => True) False p t
      (fun _ t' => Onward may t t') := by
  apply wp_calls calls (Onward may t) (Onward.refl t)
  · rintro t' e r _ leaves so_far ⟨w, w', _, _, rfl⟩
    exact so_far.trans (.enter (fun _ => Leaves.mark leaves) rfl)
  · intros
    trivial
  · intros
    trivial

end Onward

/-! ### Removal -/

/-- The marks of what is below a directory. -/
def Below (path : CStr) (m : Mark) : Prop :=
  ∃ path', m = .removed path' ∧ path ++ [slash] <+: path'

/-- The marks of a path and what is below it. -/
def Inside (path : CStr) (m : Mark) : Prop :=
  ∃ path', m = .removed path' ∧ Within path path'

theorem Below.inside {path : CStr} {m : Mark} (below : Below path m) : Inside path m := by
  obtain ⟨path', same, deeper⟩ := below
  exact ⟨path', same, Or.inr deeper⟩

theorem not_below_self (path : CStr) : ¬ Below path (.removed path) := by
  rintro ⟨path', same, deeper⟩
  cases same
  have longer := deeper.length_le
  rw [List.length_append, List.length_singleton] at longer
  omega

/-- What a removal leaves: with `true` the mark of its path, unless a special file is there, and with
    `false` no such mark. -/
structure Removal (path : CStr) (t : SysTape lib) (r : Bool) (t' : SysTape lib) : Prop where
  inside : Onward (Inside path) t t'
  gone : r = true → .removed path ∈ marks t'.log ∨
    ∃ st : Stat, (⟨.loc (.lstat path), some st⟩ : SysEvent lib) ∈ t'.log ∧ st.st_mode = .other
  stays : r = false → Onward (Below path) t t'

section Removing

variable {env : SysEnv lib} {faulty : Prop} {t : SysTape lib}

/-- Something below the path could not be removed. -/
theorem Removal.not_removed {path : CStr} {t t' : SysTape lib} (onward : Onward (Below path) t t') :
    Removal path t false t' := by
  refine ⟨onward.mono (fun _ => Below.inside), ?_, fun _ => onward⟩
  intro removed
  cases removed

/-- The call that removes the path itself. -/
theorem Removal.of_event {path : CStr} {t₀ t' : SysTape lib} (so_far : Onward (Below path) t₀ t)
    {event : SysEvent lib} {ok : Bool} (same : t'.log = event :: t.log)
    (mark : markOf event = if ok = true then some (.removed path) else none) :
    Removal path t₀ ok t' := by
  cases ok with
  | true =>
      have removes : markOf event = some (.removed path) := mark
      refine ⟨?_, fun _ => Or.inl ?_, ?_⟩
      · apply (so_far.mono (fun _ => Below.inside)).trans
        apply Onward.enter _ same
        intro m here
        rw [removes] at here
        cases here
        exact ⟨path, rfl, .refl path⟩
      · rw [same]
        exact List.mem_filterMap.mpr ⟨event, List.mem_cons_self, removes⟩
      · intro kept
        cases kept
  | false =>
      have nothing : markOf event = none := mark
      have onward : Onward (Below path) t₀ t' := by
        apply so_far.trans
        apply Onward.enter _ same
        intro m here
        rw [nothing] at here
        cases here
      exact .not_removed onward

theorem rmEntries_leaves (depth : Nat) (path : CStr) (names : List Name) :
    (rmEntries (rmTree depth) path names : L lib Bool).Calls
      (fun e => Leaves (Below path) (.loc e)) := by
  have below : ∀ name path' : CStr, Within (path ++ slash :: name) path' →
      path ++ [slash] <+: path' := by
    intro name path' within
    have entry : path ++ [slash] <+: path ++ slash :: name :=
      ⟨name, (List.append_cons path slash name).symm⟩
    rcases within with rfl | deeper
    · exact entry
    · exact entry.trans ((List.prefix_append _ _).trans deeper)
  apply rmEntries_calls
  · intros
    trivial
  · intro name
    exact ⟨_, rfl, below name _ (.refl _)⟩
  · intro name
    apply rmTree_calls
    · intros
      trivial
    · intros
      trivial
    · trivial
    · intro path' under
      exact ⟨path', rfl, below name path' under.within⟩
    · intro path' under
      exact ⟨path', rfl, below name path' under.within⟩

theorem rmTree_removal (depth : Nat) (path : CStr) :
    Wp (tapeSem env (sysSem lib faulty)) (fun _ _ => True) False (rmTree depth path) t
      (Removal path t) := by
  cases depth with
  | zero =>
      apply wp_sys_bind trivial False.elim
      intro dead
      cases dead
  | succ depth =>
      unfold rmTree
      simp only [Prog.bind_eq, Prog.pure_eq]
      apply wp_sys_bind trivial False.elim
      intro st w₁ _
      have looked : Onward (Below path) t (Tape.after t (.lstat path) st w₁) :=
        .enter (fun _ => Leaves.mark (a := .loc (.lstat path)) trivial) rfl
      cases st with
      | none => exact wp_ret.mpr (.not_removed looked)
      | some st =>
          dsimp only
          split
          · apply wp_sys trivial False.elim
            intro ok w₂ _
            exact .of_event looked rfl (by cases ok <;> rfl)
          · apply wp_sys trivial False.elim
            intro ok w₂ _
            exact .of_event looked rfl (by cases ok <;> rfl)
          · apply wp_sys_bind trivial False.elim
            intro names w₂ _
            have listed : Onward (Below path) t
                (Tape.after (Tape.after t (.lstat path) (some st) w₁) (.opendir path) names w₂) :=
              looked.trans (.enter (fun _ => Leaves.mark (a := .loc (.opendir path)) trivial) rfl)
            cases names with
            | none => exact wp_ret.mpr (.not_removed listed)
            | some names =>
                apply wp_bind
                apply wp_mono (wp_loc_leaves (rmEntries_leaves depth path names))
                intro ok t₃ emptied
                cases ok with
                | false => exact wp_ret.mpr (.not_removed (listed.trans emptied))
                | true =>
                    apply wp_sys trivial False.elim
                    intro ok w₄ _
                    exact .of_event (listed.trans emptied) rfl (by cases ok <;> rfl)
          · rename_i special
            apply wp_ret.mpr
            refine ⟨looked.mono (fun _ => Below.inside), ?_, ?_⟩
            · intro _
              exact Or.inr ⟨st, List.mem_cons_self, special⟩
            · intro kept
              cases kept

end Removing

/-! ### The handler -/

section Handler

variable {env : SysEnv lib} {faulty : Prop} {t : SysTape lib} {mem : Memory}
  {resource_path ckpt_path : CStr} {h : Hash}

theorem md5_leaves (path : CStr) : (md5 path : L lib _).Calls (fun e => Leaves noMark (.loc e)) := by
  apply (Prog.Calls.perform trivial).bind
  intro fp
  cases fp with
  | none => trivial
  | some fp =>
      apply (Prog.Calls.perform trivial).bind
      intro st
      cases st with
      | none => trivial
      | some st =>
          apply (md5Loop_calls (fun _ _ => trivial) _).bind
          intro out
          obtain ⟨fp, ctx⟩ := out
          cases ctx with
          | none => exact (Prog.Calls.perform trivial).bind (fun _ => trivial)
          | some ctx =>
              apply (Prog.Calls.perform trivial).bind
              intro hash
              exact (Prog.Calls.perform trivial).bind (fun _ => trivial)

theorem receiverCleanUp_leaves (fp : Option Stream) (status : Int) :
    Wp (tapeSem env (sysSem lib faulty)) (fun _ _ => True) False (receiverCleanUp fp status) t
      (fun r t' => r = status ∧ Onward noMark t t') := by
  have returns : Wp (tapeSem env (sysSem lib faulty)) (fun _ _ => True) False
      (receiverCleanUp fp status) t (fun r _ => r = status) :=
    receiverCleanUp_returns (fun _ _ _ => trivial) fp status
  have leaves : Wp (tapeSem env (sysSem lib faulty)) (fun _ _ => True) False
      (receiverCleanUp fp status) t (fun _ t' => Onward noMark t t') :=
    wp_loc_leaves (receiverCleanUp_calls (fun _ => trivial) fp status)
  exact wp_guard_mono (wp_and returns leaves) (fun _ _ _ => trivial)

/-- The handler gives up while something is still undone. -/
theorem giveUp_truthful (fp : Option Stream) {m : Mark}
    (missing : Straight mem resource_path ckpt_path t.log → m ∉ marks t.log)
    (needed : ∀ t', Onward noMark t t' → Straight mem resource_path ckpt_path t'.log →
      Completed mem resource_path ckpt_path t'.log → m ∈ marks t'.log) :
    Wp (tapeSem env (sysSem lib faulty)) (fun _ _ => True) False (receiverCleanUp fp (-1)) t
      (Truthful mem resource_path ckpt_path) := by
  apply wp_mono (receiverCleanUp_leaves fp (-1))
  rintro r t' ⟨rfl, onward⟩ straight
  constructor
  · intro impossible
    cases impossible
  · intro completed
    have unmarked := onward.missing (missing (straight.mono onward.grows)) id
    exact absurd (needed t' onward straight completed) unmarked

/-- Nothing has been marked yet. -/
theorem giveUp_unmarked (fp : Option Stream) (unmarked : marks t.log = []) :
    Wp (tapeSem env (sysSem lib faulty)) (fun _ _ => True) False (receiverCleanUp fp (-1)) t
      (Truthful mem resource_path ckpt_path) := by
  apply giveUp_truthful fp (m := .extracted)
  · intro _
    rw [unmarked]
    exact List.not_mem_nil
  · intro t' _ _ completed
    exact completed.extracted

/-- The end of a handler that has verified the hash and extracted the archive. -/
theorem cleanFiles_truthful {fp : Option Stream} {status : Int} (home : CStr)
    (received : h ∈ hashes t.log) (computed : Computed h t.log)
    (extracted : .extracted ∈ marks t.log) (only : ∀ m ∈ marks t.log, m = .extracted)
    (zero : Straight mem resource_path ckpt_path t.log → status = 0) :
    Wp (tapeSem env (sysSem lib faulty)) (fun _ _ => True) False
      (cleanFiles fp status home resource_path (checkpointPath mem ckpt_path h)) t
      (Truthful mem resource_path ckpt_path) := by
  have kept : ∀ path, .removed path ∉ marks t.log := by
    intro path here
    cases only _ here
  unfold cleanFiles
  simp only [Prog.bind_eq]
  apply wp_sys_bind trivial False.elim
  intro moved w₁ _
  have onward₁ : Onward noMark t (Tape.after t (.chdir home) moved w₁) :=
    .enter (fun _ => Leaves.mark (a := .loc (.chdir home)) trivial) rfl
  cases moved with
  | false =>
      apply giveUp_truthful fp (m := .removed resource_path)
      · intro _
        exact onward₁.missing (kept resource_path) id
      · intro t' _ _ completed
        exact completed.removed
  | true =>
      rw [if_pos rfl]
      apply wp_bind
      apply wp_mono (rmTree_removal MAX_PATH_LENGTH resource_path)
      intro ok t₂ removal
      cases ok with
      | false =>
          apply giveUp_truthful fp (m := .removed resource_path)
          · intro _
            exact (removal.stays rfl).missing (onward₁.missing (kept resource_path) id)
              (not_below_self resource_path)
          · intro t' _ _ completed
            exact completed.removed
      | true =>
          rw [if_pos rfl]
          have grown₂ : t.log ⊆ t₂.log := List.Subset.trans onward₁.grows removal.inside.grows
          apply wp_bind
          apply wp_mono (rmTree_removal MAX_PATH_LENGTH (checkpointPath mem ckpt_path h))
          intro ok t₃ removal'
          have grown₃ : t.log ⊆ t₃.log := List.Subset.trans grown₂ removal'.inside.grows
          cases ok with
          | false =>
              apply giveUp_truthful fp (m := .removed (checkpointPath mem ckpt_path h))
              · intro straight
                have apart := (straight h (hashes_of_subset grown₃ received)).1
                apply (removal'.stays rfl).missing _ (not_below_self _)
                apply removal.inside.missing (onward₁.missing (kept _) id)
                rintro ⟨path', same, within⟩
                cases same
                exact apart within
              · intro t' onward straight completed
                exact completed.checkpoint straight
                  (hashes_of_subset (List.Subset.trans grown₃ onward.grows) received)
          | true =>
              rw [if_pos rfl]
              apply wp_mono (receiverCleanUp_leaves fp status)
              rintro r t₄ ⟨rfl, onward₄⟩ straight
              have grown₄ : t.log ⊆ t₄.log := List.Subset.trans grown₃ onward₄.grows
              have received₄ := hashes_of_subset grown₄ received
              have plain : ∀ (path : CStr) (st : Stat) (log : List (SysEvent lib)), log ⊆ t₄.log →
                  path = resource_path ∨ path = checkpointPath mem ckpt_path h →
                  (⟨.loc (.lstat path), some st⟩ : SysEvent lib) ∈ log → st.st_mode ≠ .other := by
                intro path st log sub either here
                exact of_decide_eq_true (straight.keeps received₄ (sub here)) either
              have later : t₂.log ⊆ t₄.log :=
                List.Subset.trans removal'.inside.grows onward₄.grows
              constructor
              · intro _
                refine ⟨⟨h, received₄, ?_, ?_⟩, ?_, ?_⟩
                · obtain ⟨ctx, here⟩ := computed
                  exact ⟨ctx, grown₄ here⟩
                · rcases removal'.gone rfl with removed | ⟨st, here, special⟩
                  · exact marks_of_subset onward₄.grows removed
                  · exact absurd special (plain _ st _ onward₄.grows (Or.inr rfl) here)
                · exact marks_of_subset grown₄ extracted
                · rcases removal.gone rfl with removed | ⟨st, here, special⟩
                  · exact marks_of_subset later removed
                  · exact absurd special (plain _ st _ later (Or.inl rfl) here)
              · intro _
                exact zero (straight.mono grown₄)

/-- The handler from the transfer on. -/
theorem finishReceiving_truthful {fp : Option Stream} {status : Int} (home name dir : CStr)
    (received : h ∈ hashes t.log) (unmarked : marks t.log = [])
    (zero : Straight mem resource_path ckpt_path t.log → status = 0) :
    Wp (soloSem (tapeSem env (sysSem lib faulty))) (fun _ _ => True) False
      (finishReceiving fp status h home name dir resource_path (checkpointPath mem ckpt_path h)) t
      (Truthful mem resource_path ckpt_path) := by
  unfold finishReceiving
  simp only [Prog.bind_eq]
  apply wp_solo_bind trivial False.elim
  intro moved w₁ _
  have unmarked₁ : marks (Tape.after t (.chdir dir) moved w₁).log = [] := unmarked
  cases moved with
  | false => exact wp_solo_loc (giveUp_unmarked fp unmarked₁)
  | true =>
      rw [if_pos rfl]
      apply wp_bind
      apply wp_solo_loc
      have hashed : Wp (tapeSem env (sysSem lib faulty)) (fun _ _ => True) False
          (md5 (name ++ dotZip)) (Tape.after t (.chdir dir) true w₁)
          (fun r t' => ∀ h, r = some h → Computed h t'.log) :=
        md5_computed (fun _ _ _ => trivial) _
      apply wp_mono (wp_guard_mono (wp_and hashed (wp_loc_leaves (md5_leaves (name ++ dotZip))))
        (fun _ _ _ => trivial))
      intro computed t₂ both
      obtain ⟨known, onward₂⟩ := both
      have unmarked₂ := onward₂.unmarked unmarked₁
      have received₂ : h ∈ hashes t₂.log := hashes_of_subset onward₂.grows received
      cases computed with
      | none => exact wp_solo_loc (giveUp_unmarked fp unmarked₂)
      | some computed =>
          have computed₂ := known computed rfl
          dsimp only
          split
          · rename_i same
            subst same
            apply wp_solo_send trivial
            intro sent
            cases sent with
            | false => exact wp_solo_loc (giveUp_unmarked fp unmarked₂)
            | true =>
                rw [if_pos rfl]
                apply wp_solo_bind trivial False.elim
                intro extracted w₃ _
                cases extracted with
                | false => exact wp_solo_loc (giveUp_unmarked fp unmarked₂)
                | true =>
                    apply wp_solo_loc
                    apply cleanFiles_truthful home
                    · exact hashes_of_subset (List.subset_cons_of_subset _ (List.subset_cons_self _ _))
                        received₂
                    · obtain ⟨ctx, here⟩ := computed₂
                      exact ⟨ctx, List.mem_cons_of_mem _ (List.mem_cons_of_mem _ here)⟩
                    · exact List.mem_cons_self
                    · intro m here
                      cases here with
                      | head => rfl
                      | tail _ before =>
                          have before : m ∈ marks t₂.log := before
                          rw [unmarked₂] at before
                          cases before
                    · intro straight
                      apply zero (straight.mono _)
                      intro event here
                      exact List.mem_cons_of_mem _ (List.mem_cons_of_mem _
                        (onward₂.grows (List.mem_cons_of_mem _ here)))
          · rename_i different
            apply wp_solo_send trivial
            intro sent
            cases sent with
            | false => exact wp_solo_loc (giveUp_unmarked fp unmarked₂)
            | true =>
                rw [if_pos rfl]
                apply wp_solo_loc
                apply wp_mono (wp_ordinary (cleanFiles_ordinary _ _ _ _ _) (fun _ _ _ => trivial))
                intro r t₃ grown straight
                have straight₂ := straight.mono (List.Subset.trans (List.subset_cons_self _ _) grown)
                exact absurd (straight₂.equal received₂ computed₂) different

/-- What the search for a checkpoint leaves: without an offset the status is `-1`, and with one it is
    `0`. -/
def Opening (mem : Memory) (resource_path ckpt_path : CStr) (r : Option Stream × Int × Option UInt64)
    (t : SysTape lib) : Prop :=
  Straight mem resource_path ckpt_path t.log →
    match r.2.2 with
    | none => r.2.1 = -1
    | some _ => r.2.1 = 0

theorem restart_opening (fp : Option Stream) {status : Int}
    (zero : Straight mem resource_path ckpt_path t.log → status = 0) :
    Wp (soloSem (tapeSem env (sysSem lib faulty))) (fun _ _ => True) False (restart fp status) t
      (Opening mem resource_path ckpt_path) := by
  apply wp_solo_send trivial
  intro sent
  cases sent with
  | false =>
      rw [if_neg Bool.false_ne_true, Prog.pure_eq, wp_ret]
      intro _
      rfl
  | true =>
      rw [if_pos rfl, Prog.pure_eq, wp_ret]
      intro straight
      exact zero (straight.mono (List.subset_cons_self _ _))

theorem offerResume_opening (fp : Stream) (ckpt : Checkpoint) (received : h ∈ hashes t.log) :
    Wp (soloSem (tapeSem env (sysSem lib faulty))) (fun _ _ => True) False (offerResume fp ckpt) t
      (Opening mem resource_path ckpt_path) := by
  unfold offerResume
  simp only [Prog.bind_eq, Prog.pure_eq]
  apply wp_solo_send trivial
  intro sent
  cases sent with
  | false => exact wp_ret.mpr (fun _ => rfl)
  | true =>
      rw [if_pos rfl]
      apply wp_solo_recv trivial
      intro response
      cases response with
      | none => exact wp_ret.mpr (fun _ => rfl)
      | some response_type =>
          dsimp only
          split
          · apply wp_solo_send trivial
            intro sent
            cases sent with
            | false => exact wp_ret.mpr (fun _ => rfl)
            | true => exact wp_ret.mpr (fun _ => rfl)
          · split
            · exact wp_ret.mpr (fun _ => rfl)
            · apply wp_solo_bind trivial False.elim
              intro _ w' _
              rw [wp_ret]
              intro straight
              have received' : h ∈ hashes (Tape.after
                  (Tape.record (Tape.record t (.send .code Command.resume.code) true) (.recv .code)
                    (some response_type)) .protocolNotFollowed () w').log := by
                apply hashes_of_subset _ received
                intro event here
                exact List.mem_cons_of_mem _ (List.mem_cons_of_mem _ (List.mem_cons_of_mem _ here))
              -- the peer has answered neither OK nor ABORT
              exact nomatch straight.keeps received' List.mem_cons_self

theorem negotiate_opening (received : h ∈ hashes t.log) :
    Wp (soloSem (tapeSem env (sysSem lib faulty))) (fun _ _ => True) False
      (negotiate (checkpointPath mem ckpt_path h) resource_path) t
      (Opening mem resource_path ckpt_path) := by
  -- a branch the run is not straight in
  have refused : ∀ {log : List (SysEvent lib)} {event : SysEvent lib}, h ∈ hashes log →
      event ∈ log → keeps mem resource_path ckpt_path h event ≠ true →
      Straight mem resource_path ckpt_path log → (-1 : Int) = 0 :=
    fun received here spoils straight => absurd (straight.keeps received here) spoils
  have one : ∀ {e : SysEvent lib} {log : List (SysEvent lib)}, h ∈ hashes log →
      h ∈ hashes (e :: log) :=
    fun received => hashes_of_subset (List.subset_cons_self _ _) received
  unfold negotiate
  simp only [Prog.bind_eq, Prog.pure_eq]
  apply wp_solo_bind trivial False.elim
  intro found w₁ _
  have received₁ := one (e := ⟨.loc (.lstat (checkpointPath mem ckpt_path h)), found⟩) received
  cases found with
  | none => exact restart_opening none (fun _ => rfl)
  | some _ =>
      dsimp only
      apply wp_solo_bind trivial False.elim
      intro readable w₂ _
      have received₂ := one (e := ⟨.loc (.access (checkpointPath mem ckpt_path h) .r), readable⟩)
        received₁
      cases readable with
      | false => exact wp_ret.mpr (fun _ => rfl)
      | true =>
          rw [if_pos rfl]
          apply wp_solo_bind trivial False.elim
          intro fp w₃ _
          have received₃ := one (e := ⟨.loc (.fopen (checkpointPath mem ckpt_path h) .rb), fp⟩)
            received₂
          cases fp with
          | none =>
              exact restart_opening none (refused received₃ List.mem_cons_self (fun keeps => of_decide_eq_true keeps rfl))
          | some fp =>
              dsimp only
              apply wp_solo_bind trivial False.elim
              intro out w₄ _
              have received₄ := one (e := ⟨.loc (.fread fp sizeofCheckpoint), out⟩) received₃
              obtain ⟨bytes, fp'⟩ := out
              dsimp only
              split
              · rename_i short
                exact restart_opening _ (refused received₄ List.mem_cons_self
                  (fun keeps => short (of_decide_eq_true keeps rfl)))
              · split
                · exact restart_opening _ (fun _ => rfl)
                · apply wp_solo_bind trivial False.elim
                  intro st w₅ _
                  have received₅ := one (e := ⟨.loc (.stat resource_path), st⟩) received₄
                  cases st with
                  | none =>
                      exact restart_opening _ (refused received₅ List.mem_cons_self
                        (fun keeps => of_decide_eq_true keeps rfl))
                  | some st =>
                      dsimp only
                      split
                      · exact restart_opening _ (fun _ => rfl)
                      · exact offerResume_opening fp' _ received₅

/-! ### Parts that leave no mark -/

theorem restart_leaves (fp : Option Stream) (status : Int) :
    (restart fp status : P lib _).Calls (Leaves noMark) := by
  apply (Prog.Calls.perform trivial).bind
  intro sent
  cases sent <;> trivial

theorem offerResume_leaves (fp : Stream) (ckpt : Checkpoint) :
    (offerResume fp ckpt : P lib _).Calls (Leaves noMark) := by
  apply (Prog.Calls.perform trivial).bind
  intro sent
  cases sent with
  | false => trivial
  | true =>
      apply (Prog.Calls.perform trivial).bind
      intro response
      cases response with
      | none => trivial
      | some response_type =>
          dsimp only
          split
          · apply (Prog.Calls.perform trivial).bind
            intro sent
            cases sent <;> trivial
          · split
            · trivial
            · exact ⟨trivial, fun _ => trivial⟩

theorem negotiate_leaves (ckpt path : CStr) :
    (negotiate ckpt path : P lib _).Calls (Leaves noMark) := by
  apply Prog.Calls.bind (.lift (.perform trivial))
  intro found
  cases found with
  | none => exact restart_leaves _ _
  | some _ =>
      apply Prog.Calls.bind (.lift (.perform trivial))
      intro readable
      cases readable with
      | false => trivial
      | true =>
          apply Prog.Calls.bind (.lift (.perform trivial))
          intro fp
          cases fp with
          | none => exact restart_leaves _ _
          | some fp =>
              apply Prog.Calls.bind (.lift (.perform trivial))
              intro out
              dsimp only
              split
              · exact restart_leaves _ _
              · split
                · exact restart_leaves _ _
                · apply Prog.Calls.bind (.lift (.perform trivial))
                  intro st
                  cases st with
                  | none => exact restart_leaves _ _
                  | some st =>
                      dsimp only
                      split
                      · exact restart_leaves _ _
                      · exact offerResume_leaves _ _

theorem recvRound_leaves (K : AESKeys) (mem : Memory) (ckpt path : CStr)
    (st : Stream × UInt64 × UInt64) : (recvRound K mem ckpt path st : P lib _).Calls (Leaves noMark) := by
  obtain ⟨fp, size, offset⟩ := st
  apply Prog.Calls.bind (.lift (.perform trivial))
  intro _
  split
  · trivial
  · apply (Prog.Calls.perform trivial).bind
    intro data
    cases data with
    | none => trivial
    | some data =>
        dsimp only
        split
        · trivial
        · apply Prog.Calls.bind (.lift (.perform trivial))
          intro out
          split
          · trivial
          · apply Prog.Calls.bind (.lift (.perform trivial))
            intro fp
            apply Prog.Calls.bind (.lift (writeCheckpoint_calls (fun _ _ => trivial)
              (fun _ _ _ => trivial) (fun _ => trivial) (fun _ => trivial) (fun _ _ => trivial) _ _ _))
            intro saved
            split <;> trivial

theorem recvfile_leaves (mem : Memory) (zip : CStr) (K : AESKeys) (k : UInt64) (ckpt path : CStr) :
    (recvfile mem zip K k ckpt path : P lib Int).Calls (Leaves noMark) := by
  have ends : ∀ (fp fckpt : Option Stream) (status : Int),
      (Prog.loc (transferCleanUp fp fckpt status) : P lib Int).Calls (Leaves noMark) :=
    fun fp fckpt status =>
      .lift (transferCleanUp_calls (fun _ => trivial) (fun _ => trivial) fp fckpt status)
  apply Prog.Calls.bind
    (.lift (openPartial_calls (fun _ _ => trivial) (fun _ => trivial) trivial zip k))
  intro out
  obtain ⟨fp, moved⟩ := out
  cases moved with
  | false => exact ends _ _ _
  | true =>
      cases fp with
      | none => exact ends _ _ _
      | some fp =>
          apply (Prog.Calls.perform trivial).bind
          intro resource
          cases resource with
          | none => exact ends _ _ _
          | some resource =>
              apply Prog.Calls.bind (.lift (.perform trivial))
              intro ok
              cases ok with
              | false => exact ends _ _ _
              | true =>
                  apply Prog.Calls.bind (.iterate (recvRound_leaves K mem ckpt path) _)
                  intro out
                  exact ends _ _ _

/-! ### The return value -/

theorem recvfileHandler_truthful (mem : Memory) (resource_name resource_dir resource_path ckpt_path : CStr)
    (K : AESKeys) (w : World) :
    Wp (soloSem (tapeSem env (sysSem lib faulty))) (fun _ _ => True) False
      (recvfileHandler mem resource_name resource_dir resource_path ckpt_path K) ⟨w, []⟩
      (Truthful mem resource_path ckpt_path) := by
  unfold recvfileHandler
  simp only [Prog.bind_eq]
  apply wp_solo_bind trivial False.elim
  intro home w₁ _
  cases home with
  | none => exact wp_solo_loc (giveUp_unmarked none rfl)
  | some current_dir =>
      apply wp_solo_recv trivial
      intro received
      cases received with
      | none => exact wp_solo_loc (giveUp_unmarked none rfl)
      | some hash =>
          dsimp only
          apply wp_bind
          apply wp_mono (wp_guard_mono (wp_and (negotiate_opening (mem_hashes List.mem_cons_self))
            (wp_leaves (negotiate_leaves _ _))) (fun _ _ _ => trivial))
          rintro ⟨fp, status, offset⟩ t₂ ⟨opening, onward₂⟩
          have unmarked₂ := onward₂.unmarked rfl
          cases offset with
          | none =>
              apply wp_solo_loc
              apply wp_mono (receiverCleanUp_leaves fp status)
              rintro r t₃ ⟨rfl, onward₃⟩ straight
              have minus : r = -1 := opening (straight.mono onward₃.grows)
              constructor
              · intro zero
                rw [minus] at zero
                cases zero
              · intro completed
                have marked := completed.extracted
                rw [onward₃.unmarked unmarked₂] at marked
                cases marked
          | some offset =>
              dsimp only
              apply wp_bind
              apply wp_mono (wp_leaves (recvfile_leaves _ _ _ _ _ _))
              intro r t₃ onward₃
              have unmarked₃ := onward₃.unmarked unmarked₂
              split
              · exact wp_solo_loc (giveUp_unmarked fp unmarked₃)
              · apply finishReceiving_truthful
                · exact hashes_of_subset (List.Subset.trans onward₂.grows onward₃.grows)
                    (mem_hashes List.mem_cons_self)
                · exact unmarked₃
                · intro straight
                  exact opening (straight.mono onward₃.grows)

end Handler

/-! ### Two transfers of one file -/

/-- The archive has been received in full under a hash, and the checkpoint says so. -/
def receivedStore (h : Hash) : Store Name UInt8 :=
  tree [letter 100, letter 99]
    [(smallSite.data, smallZip),
      (smallSite.ckpt h, Checkpoint.image ⟨8, strcpy (zeros _) smallSite.resource_path⟩ (zeros _))]

/-- A call on a machine where everything works, against a peer that advertises the hash and agrees to
    resume. -/
@[irreducible] def resumedRun (h : Hash) : P reference Int × SysTape reference :=
  Prog.play (Player.solo (machine reference False).onTape)
    ([.loc .works, .frame .hash h] ++ List.replicate 5 (.loc .works) ++
      [.taken, .frame .code Response.ok.code, .taken] ++ List.replicate 30 (.loc .works) ++
      [.frame .resource ⟨8, zeros _, zeros _⟩] ++ List.replicate 20 (.loc .works) ++ [.taken] ++
      List.replicate 20 (.loc .works))
    (recvfileHandler smallSite.mem smallSite.resource_name smallSite.resource_dir
      smallSite.resource_path smallSite.ckpt_path smallSite.K, ⟨⟨receivedStore h, []⟩, []⟩)

theorem reach_resumedRun {h : Hash} (returned : (resumedRun h).1.result = some 0) :
    Prog.Reach (soloSem (tapeSem still (sysSem reference False)))
      (recvfileHandler smallSite.mem smallSite.resource_name smallSite.resource_dir
        smallSite.resource_path smallSite.ckpt_path smallSite.K, ⟨⟨receivedStore h, []⟩, []⟩)
      (.ret 0, (resumedRun h).2) := by
  apply Prog.reach_ret _ returned
  unfold resumedRun
  exact reach_play _ _ _

theorem equal_hash_straight :
    (resumedRun (digestOf smallZip)).1.result = some 0 ∧
      Straight smallSite.mem smallSite.resource_path smallSite.ckpt_path
        (resumedRun (digestOf smallZip)).2.log := by
  decide +kernel

theorem other_hash_unextracted :
    (resumedRun (zeros _)).1.result = some 0 ∧
      Mark.extracted ∉ marks (resumedRun (zeros _)).2.log := by
  decide +kernel

end Filerail
