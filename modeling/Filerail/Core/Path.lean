/-
Module: Filerail.Core.Path
Layer: Core
Purpose: C strings and the locations they name. A path is a byte string; `resolve` reads it from the
  current directory, component by component, as the kernel does (`""` and `"."` stay, `".."` goes up,
  an absolute path starts at the root). The lemmas say which location a path composed with `strcat`
  names, which is how the code ties a file it opens by full path to the same file opened by name
  after a `chdir`.
Imports: Mathlib.Data.List.Basic
Main exports: CStr, cstr, Name, Loc, resolve, render, resolve_join, resolve_render, walk_suffix
-/
import Mathlib.Data.List.Basic
import Mathlib.Tactic.Basic

namespace Filerail

/-- A C string, without its terminator. -/
abbrev CStr := List UInt8

/-- The C string that starts in a buffer. -/
def cstr (buffer : List UInt8) : CStr :=
  buffer.takeWhile (· ≠ 0)

/-- `'/'` -/
def slash : UInt8 := 47

/-- `'.'` -/
def dot : UInt8 := 46

/-- `".zip"` -/
def dotZip : CStr := [46, 122, 105, 112]

/-- `".tmp"` -/
def dotTmp : CStr := [46, 116, 109, 112]

/-- A path component that a directory can have as an entry. -/
def NameOk (segment : CStr) : Prop :=
  segment ≠ [] ∧ slash ∉ segment ∧ segment ≠ [dot] ∧ segment ≠ [dot, dot]

instance (segment : CStr) : Decidable (NameOk segment) :=
  inferInstanceAs (Decidable (_ ∧ _ ∧ _ ∧ _))

/-- The name of a directory entry. -/
abbrev Name := { segment : CStr // NameOk segment }

/-- A place in the tree: the names from the root. -/
abbrev Loc := List Name

/-- Go from a directory to one component of a path. -/
def enter (l : Loc) (segment : CStr) : Loc :=
  if ok : NameOk segment then l ++ [⟨segment, ok⟩]
  else if segment = [dot, dot] then l.dropLast
  else l

/-- Read the rest of a path, `segment` being the component read so far. -/
def walk (l : Loc) (segment : CStr) : CStr → Loc
  | [] => enter l segment
  | c :: rest => if c = slash then walk (enter l segment) [] rest else walk l (segment ++ [c]) rest

/-- The location a path names. -/
def resolve (cwd : Loc) (path : CStr) : Loc :=
  if path.head? = some slash then walk [] [] path else walk cwd [] path

/-- The absolute path of a location, as `getcwd` gives it. -/
def render (l : Loc) : CStr :=
  if l = [] then [slash] else l.flatMap (fun name => slash :: name.1)

@[simp] theorem enter_nil (l : Loc) : enter l [] = l := by
  simp [enter, NameOk]

theorem enter_ok {segment : CStr} (ok : NameOk segment) (l : Loc) :
    enter l segment = l ++ [⟨segment, ok⟩] := by
  simp [enter, ok]

theorem walk_plain {path : CStr} (plain : slash ∉ path) (l : Loc) (segment : CStr) :
    walk l segment path = enter l (segment ++ path) := by
  induction path generalizing segment with
  | nil => simp [walk]
  | cons c rest ih =>
      rw [List.mem_cons, not_or] at plain
      rw [walk, if_neg (Ne.symm plain.1), ih plain.2]
      simp

theorem walk_slash (l : Loc) (segment a b : CStr) :
    walk l segment (a ++ slash :: b) = walk (walk l segment a) [] b := by
  induction a generalizing l segment with
  | nil => simp [walk]
  | cons c rest ih =>
      simp only [List.cons_append, walk]
      split
      · exact ih _ _
      · exact ih _ _

theorem resolve_relative (cwd : Loc) {path : CStr} (relative : path.head? ≠ some slash) :
    resolve cwd path = walk cwd [] path := by
  rw [resolve, if_neg relative]

theorem resolve_absolute {path : CStr} (absolute : path.head? = some slash) (cwd cwd' : Loc) :
    resolve cwd path = resolve cwd' path := by
  rw [resolve, if_pos absolute, resolve, if_pos absolute]

/-- Composing a directory and a path below it. -/
theorem resolve_join (cwd : Loc) {dir : CStr} (some_dir : dir ≠ []) (path : CStr) :
    resolve cwd (dir ++ slash :: path) = walk (resolve cwd dir) [] path := by
  have head : (dir ++ slash :: path).head? = dir.head? :=
    List.head?_append_of_ne_nil dir some_dir
  by_cases absolute : dir.head? = some slash
  · rw [resolve, if_pos (head.trans absolute), resolve, if_pos absolute, walk_slash]
  · rw [resolve_relative _ absolute, resolve_relative _ (head ▸ absolute), walk_slash]

/-- A path that ends in a proper suffix ends in a name with that suffix. -/
theorem walk_suffix {suffix : CStr} (long : 3 ≤ suffix.length) (plain : slash ∉ suffix) (l : Loc)
    (segment path : CStr) (clean : slash ∉ segment) :
    ∃ parent name, walk l segment (path ++ suffix) = parent ++ [name] ∧ suffix <:+ name.1 := by
  induction path generalizing l segment with
  | nil =>
      have ok : NameOk (segment ++ suffix) := by
        refine ⟨?_, ?_, ?_, ?_⟩
        · intro h
          have := congrArg List.length h
          simp only [List.length_append, List.length_nil] at this
          omega
        · simp [clean, plain]
        · intro h
          have := congrArg List.length h
          simp only [List.length_append, List.length_cons, List.length_nil] at this
          omega
        · intro h
          have := congrArg List.length h
          simp only [List.length_append, List.length_cons, List.length_nil] at this
          omega
      rw [List.nil_append, walk_plain plain, enter_ok ok]
      exact ⟨l, _, rfl, List.suffix_append _ _⟩
  | cons c rest ih =>
      simp only [List.cons_append, walk]
      split
      · exact ih _ [] (by simp)
      · rename_i other
        refine ih l _ ?_
        simp only [List.mem_append, List.mem_singleton, not_or]
        exact ⟨clean, fun h => other h.symm⟩

theorem walk_flatMap (l rest : Loc) :
    walk l [] (rest.flatMap (fun name => slash :: name.1)) = l ++ rest := by
  have reads : ∀ (rest l : Loc) (name : Name),
      walk l [] (name.1 ++ rest.flatMap (fun name => slash :: name.1)) = l ++ name :: rest := by
    intro rest
    induction rest with
    | nil =>
        intro l name
        rw [List.flatMap_nil, List.append_nil, walk_plain name.2.2.1, List.nil_append,
          enter_ok name.2]
    | cons next rest ih =>
        intro l name
        rw [List.flatMap_cons, List.cons_append, walk_slash, walk_plain name.2.2.1, List.nil_append,
          enter_ok name.2, ih]
        simp
  cases rest with
  | nil => simp [walk]
  | cons name rest =>
      rw [List.flatMap_cons, List.cons_append, walk, if_pos rfl, enter_nil]
      exact reads rest l name

/-- The path `getcwd` gives leads back to the directory. -/
theorem resolve_render (cwd l : Loc) : resolve cwd (render l) = l := by
  unfold render
  split
  · rename_i root
    subst root
    simp [resolve, walk, slash]
  · rename_i below
    cases l with
    | nil => exact absurd rfl below
    | cons name rest =>
        rw [resolve, if_pos (by simp)]
        simpa using walk_flatMap [] (name :: rest)

end Filerail
