/-
Module: Filerail.Logic.FileStore
Layer: Logic (general library)
Purpose: A file system as a process sees it: a tree of names over a table of inodes. Names of an
  arbitrary type lead to regular files, directories, symbolic links or other nodes; the bytes of a
  regular file belong to its inode, so a file that has been unlinked or replaced by a rename is still
  there for whoever has it open. The tree is a structure that carries its own well-formedness
  (directories are closed under parents and list their children, no inode has two names), so no
  operation can build a broken one. Every operation comes with the equations that say what it does
  to names and to contents.
Imports: Mathlib.Data.List.Basic, Mathlib.Logic.Function.Basic
Main exports: Node, Store, Store.fileAt, Store.setData, Store.create, Store.unlink, Store.rmdir,
  Store.rename, Store.extract, Store.Unpacks, Store.unpacks_extract, Store.Intact, splice
-/
import Mathlib.Data.List.Basic
import Mathlib.Data.List.Nodup
import Mathlib.Logic.Function.Basic

namespace FileStore

variable {ν β : Type}

/-- What a name can lead to. -/
inductive Node (ν : Type) where
  | file (ino : Nat)
  | dir
  | link (target : List ν)
  | other
deriving DecidableEq

/-- A tree of names over a table of inodes. A location is the list of names from the root. -/
structure Store (ν β : Type) where
  node : List ν → Option (Node ν)
  entries : List ν → List ν
  data : Nat → List β
  next : Nat
  root_dir : node [] = some .dir
  parent_dir : ∀ l n, node (l ++ [n]) ≠ none → node l = some .dir
  entries_iff : ∀ l n, n ∈ entries l ↔ node (l ++ [n]) ≠ none
  entries_nodup : ∀ l, (entries l).Nodup
  ino_lt : ∀ l i, node l = some (.file i) → i < next
  ino_inj : ∀ l l' i, node l = some (.file i) → node l' = some (.file i) → l = l'

/-- The tree that is only its root. -/
def Store.bare : Store ν β where
  node l := if l.isEmpty then some .dir else none
  entries _ := []
  data _ := []
  next := 0
  root_dir := rfl
  parent_dir l n named := by
    cases l <;> exact absurd rfl named
  entries_iff l n := by
    cases l <;> simp
  entries_nodup _ := List.nodup_nil
  ino_lt l i file := by
    cases l <;> cases file
  ino_inj l l' i file _ := by
    cases l <;> cases file

/-! ### Contents

`splice` is what a write at a position does to the bytes of a file. -/

/-- Write `bs` over `xs` from position `pos` on; a gap is filled with the default byte. Writing no
    bytes changes nothing, wherever it happens. -/
def splice [Inhabited β] (xs : List β) (pos : Nat) (bs : List β) : List β :=
  if bs.isEmpty then xs
  else (xs ++ List.replicate (pos - xs.length) default).take pos ++ bs ++ xs.drop (pos + bs.length)

section Splice

variable [Inhabited β]

@[simp] theorem splice_nil (xs : List β) (pos : Nat) : splice xs pos [] = xs := by
  simp [splice]

theorem splice_of_le {xs : List β} {pos : Nat} (h : pos ≤ xs.length) (bs : List β) :
    splice xs pos bs = xs.take pos ++ bs ++ xs.drop (pos + bs.length) := by
  cases bs with
  | nil => simp
  | cons b bs => simp [splice, Nat.sub_eq_zero_of_le h]

theorem length_splice {xs : List β} {pos : Nat} (h : pos ≤ xs.length) (bs : List β) :
    (splice xs pos bs).length = max xs.length (pos + bs.length) := by
  rw [splice_of_le h]
  simp only [List.length_append, List.length_take, List.length_drop]
  omega

/-- Two writes in a row are one write of both. -/
theorem splice_splice {xs : List β} {pos : Nat} (h : pos ≤ xs.length) (as bs : List β) :
    splice (splice xs pos as) (pos + as.length) bs = splice xs pos (as ++ bs) := by
  have inside : pos + as.length ≤ (splice xs pos as).length := by
    rw [length_splice h]
    omega
  rw [splice_of_le inside, splice_of_le h, splice_of_le h]
  have front : (xs.take pos ++ as).length = pos + as.length := by
    simp only [List.length_append, List.length_take]
    omega
  rw [List.take_append_of_le_length (by omega), List.take_of_length_le (by omega)]
  rw [List.drop_append, List.drop_of_length_le (by omega), front, List.drop_drop]
  simp only [List.nil_append, List.append_assoc, List.length_append]
  congr 4
  omega

end Splice

namespace Store

/-! ### Looking at the tree -/

/-- The bytes of the regular file at a location. -/
def fileAt (s : Store ν β) (l : List ν) : Option (List β) :=
  match s.node l with
  | some (.file i) => some (s.data i)
  | _ => none

theorem fileAt_eq_some_iff {s : Store ν β} {l : List ν} {bs : List β} :
    s.fileAt l = some bs ↔ ∃ i, s.node l = some (.file i) ∧ s.data i = bs := by
  unfold fileAt
  cases h : s.node l with
  | none => simp
  | some x => cases x <;> simp

theorem fileAt_of_node {s : Store ν β} {l : List ν} {i : Nat} (h : s.node l = some (.file i)) :
    s.fileAt l = some (s.data i) := by
  simp [fileAt, h]

theorem fileAt_of_absent {s : Store ν β} {l : List ν} (h : s.node l = none) :
    s.fileAt l = none := by
  simp [fileAt, h]

/-- Nothing is at the location, or a regular file. -/
def Plain (s : Store ν β) (l : List ν) : Prop :=
  s.node l = none ∨ ∃ i, s.node l = some (.file i)

theorem Plain.cases_fileAt {s : Store ν β} {l : List ν} (plain : s.Plain l) :
    (s.node l = none ∧ s.fileAt l = none) ∨
      ∃ i, s.node l = some (.file i) ∧ s.fileAt l = some (s.data i) := by
  cases plain with
  | inl absent => exact Or.inl ⟨absent, fileAt_of_absent absent⟩
  | inr present =>
      obtain ⟨i, h⟩ := present
      exact Or.inr ⟨i, h, fileAt_of_node h⟩

/-- Below a location that is not a directory there is nothing. -/
theorem absent_below {s : Store ν β} {l : List ν} (h : s.node l ≠ some .dir) (n : ν) :
    s.node (l ++ [n]) = none := by
  by_contra present
  exact h (s.parent_dir l n present)

/-- What lies above a name is a directory. -/
theorem dir_above {s : Store ν β} {p l : List ν} (named : s.node l ≠ none) (above : p <+: l)
    (ne : p ≠ l) : s.node p = some .dir := by
  obtain ⟨rest, rfl⟩ := above
  cases rest with
  | nil => exact absurd (List.append_nil p).symm ne
  | cons n rest =>
      clear ne
      induction rest generalizing p n with
      | nil => exact s.parent_dir p n named
      | cons m rest ih =>
          rw [List.append_cons] at named
          have dir := ih m named
          apply s.parent_dir p n
          rw [dir]
          simp

theorem entries_eq_nil {s : Store ν β} {l : List ν} (h : s.node l ≠ some .dir) :
    s.entries l = [] := by
  refine List.eq_nil_iff_forall_not_mem.mpr (fun n listed => ?_)
  exact (s.entries_iff l n).mp listed (absent_below h n)

/-- Follow symbolic links at the location, at most `fuel` of them. -/
def follow (s : Store ν β) : Nat → List ν → List ν
  | 0, l => l
  | fuel + 1, l =>
      match s.node l with
      | some (.link target) => s.follow fuel target
      | _ => l

theorem follow_eq_self {s : Store ν β} {l : List ν} (h : ∀ t, s.node l ≠ some (.link t))
    (fuel : Nat) : s.follow fuel l = l := by
  cases fuel with
  | zero => rfl
  | succ fuel =>
      unfold follow
      split
      · rename_i target eq
        exact absurd eq (h target)
      · rfl

/-- Only the links of a store decide where names lead. -/
theorem follow_congr {s s' : Store ν β}
    (links : ∀ l t, s'.node l = some (.link t) ↔ s.node l = some (.link t)) (fuel : Nat)
    (l : List ν) : s'.follow fuel l = s.follow fuel l := by
  induction fuel generalizing l with
  | zero => rfl
  | succ fuel ih =>
      unfold follow
      split
      · rename_i t here
        rw [(links l t).mp here]
        exact ih t
      · rename_i no_link
        split
        · rename_i t here
          exact absurd ((links l t).mpr here) (no_link t)
        · rfl

/-- A name leads to itself or to where some link points. -/
theorem follow_eq_or_link (s : Store ν β) (fuel : Nat) (l : List ν) :
    s.follow fuel l = l ∨ ∃ l', s.node l' = some (.link (s.follow fuel l)) := by
  induction fuel generalizing l with
  | zero => exact Or.inl rfl
  | succ fuel ih =>
      unfold follow
      split
      · rename_i t here
        rcases ih t with stays | found
        · rw [stays]
          exact Or.inr ⟨l, here⟩
        · exact Or.inr found
      · exact Or.inl rfl

theorem Plain.follow {s : Store ν β} {l : List ν} (plain : s.Plain l) (fuel : Nat) :
    s.follow fuel l = l := by
  refine follow_eq_self (fun t link => ?_) fuel
  cases plain with
  | inl absent => simp [absent] at link
  | inr present =>
      obtain ⟨i, h⟩ := present
      simp [h] at link

/-- The directory a location lies in, and its name there. -/
def parent (l : List ν) : Option (List ν × ν) :=
  match l.getLast? with
  | some n => some (l.dropLast, n)
  | none => none

theorem parent_eq_some {l p : List ν} {n : ν} (h : parent l = some (p, n)) : l = p ++ [n] := by
  unfold parent at h
  split at h
  · rename_i m last
    simp only [Option.some.injEq, Prod.mk.injEq] at h
    obtain ⟨rfl, rfl⟩ := h
    exact (List.dropLast_append_getLast? _ last).symm
  · cases h

@[simp] theorem parent_append (l : List ν) (n : ν) : parent (l ++ [n]) = some (l, n) := by
  simp [parent]

/-! ### Elementary changes -/

/-- Replace the bytes of an inode. -/
def setData (s : Store ν β) (i : Nat) (bs : List β) : Store ν β :=
  { s with data := Function.update s.data i bs }

@[simp] theorem setData_node (s : Store ν β) (i : Nat) (bs : List β) :
    (s.setData i bs).node = s.node := rfl

@[simp] theorem setData_next (s : Store ν β) (i : Nat) (bs : List β) :
    (s.setData i bs).next = s.next := rfl

@[simp] theorem setData_entries (s : Store ν β) (i : Nat) (bs : List β) :
    (s.setData i bs).entries = s.entries := rfl

@[simp] theorem setData_data_self (s : Store ν β) (i : Nat) (bs : List β) :
    (s.setData i bs).data i = bs := by
  simp [setData]

theorem setData_data_ne (s : Store ν β) {i j : Nat} (h : j ≠ i) (bs : List β) :
    (s.setData i bs).data j = s.data j := by
  simp [setData, Function.update_of_ne h]

@[simp] theorem setData_self (s : Store ν β) (i : Nat) : s.setData i (s.data i) = s := by
  simp [setData]

@[simp] theorem setData_setData (s : Store ν β) (i : Nat) (as bs : List β) :
    (s.setData i as).setData i bs = s.setData i bs := by
  simp [setData]

theorem fileAt_setData {s : Store ν β} {l : List ν} {i : Nat} (h : s.node l = some (.file i))
    (bs : List β) : (s.setData i bs).fileAt l = some bs := by
  rw [fileAt_of_node (s := s.setData i bs) h, setData_data_self]

/-- Writing to a file changes no other one. -/
theorem fileAt_setData_ne {s : Store ν β} {l l' : List ν} {i : Nat}
    (h : s.node l = some (.file i)) (ne : l' ≠ l) (bs : List β) :
    (s.setData i bs).fileAt l' = s.fileAt l' := by
  unfold fileAt
  rw [setData_node]
  split
  · rename_i j here
    rw [setData_data_ne]
    rintro rfl
    exact ne (s.ino_inj _ _ _ here h)
  · rfl

theorem fileAt_eq_of_node_data {s s' : Store ν β} {l : List ν} (node : s'.node l = s.node l)
    (data : ∀ i, s.node l = some (.file i) → s'.data i = s.data i) : s'.fileAt l = s.fileAt l := by
  unfold fileAt
  rw [node]
  split
  · rename_i i here
    rw [data i here]
  · rfl

section Changes

variable [DecidableEq ν]

/-- Hang a node under an absent name of a directory. `x` must not be an inode that has a name. -/
def attach (s : Store ν β) (l : List ν) (n : ν) (x : Node ν) (bound : Nat)
    (dir : s.node l = some .dir) (absent : s.node (l ++ [n]) = none) (grows : s.next ≤ bound)
    (free : ∀ i, x = .file i → i < bound ∧ ∀ l', s.node l' ≠ some (.file i)) : Store ν β where
  node := Function.update s.node (l ++ [n]) (some x)
  entries := Function.update s.entries l (n :: s.entries l)
  data := s.data
  next := bound
  root_dir := by
    rw [Function.update_of_ne (by simp)]
    exact s.root_dir
  parent_dir := by
    intro l' n' present
    have ne : l' ≠ l ++ [n] := by
      rintro rfl
      rw [Function.update_of_ne (by simp)] at present
      have := s.parent_dir _ _ present
      rw [absent] at this
      cases this
    rw [Function.update_of_ne ne]
    by_cases same : l' ++ [n'] = l ++ [n]
    · obtain ⟨rfl, _⟩ := List.append_inj' same rfl
      exact dir
    · rw [Function.update_of_ne same] at present
      exact s.parent_dir _ _ present
  entries_iff := by
    intro l' n'
    by_cases same : l' = l
    · subst same
      rw [Function.update_self]
      by_cases name : n' = n
      · subst name
        simp
      · rw [Function.update_of_ne (by simpa using name), List.mem_cons, s.entries_iff]
        simp [name]
    · rw [Function.update_of_ne same, s.entries_iff, Function.update_of_ne]
      intro both
      exact same (List.append_inj' both rfl).1
  entries_nodup := by
    intro l'
    by_cases same : l' = l
    · subst same
      rw [Function.update_self, List.nodup_cons]
      refine ⟨fun listed => ?_, s.entries_nodup _⟩
      exact (s.entries_iff _ _).mp listed absent
    · rw [Function.update_of_ne same]
      exact s.entries_nodup l'
  ino_lt := by
    intro l' i h
    by_cases same : l' = l ++ [n]
    · subst same
      rw [Function.update_self] at h
      exact (free i (Option.some.inj h)).1
    · rw [Function.update_of_ne same] at h
      exact Nat.lt_of_lt_of_le (s.ino_lt l' i h) grows
  ino_inj := by
    intro l' l'' i h h'
    by_cases same : l' = l ++ [n]
    · by_cases same' : l'' = l ++ [n]
      · rw [same, same']
      · subst same
        rw [Function.update_self] at h
        rw [Function.update_of_ne same'] at h'
        exact absurd h' ((free i (Option.some.inj h)).2 l'')
    · by_cases same' : l'' = l ++ [n]
      · subst same'
        rw [Function.update_self] at h'
        rw [Function.update_of_ne same] at h
        exact absurd h ((free i (Option.some.inj h')).2 l')
      · rw [Function.update_of_ne same] at h
        rw [Function.update_of_ne same'] at h'
        exact s.ino_inj l' l'' i h h'

/-- Take a node without children out of its directory. Its inode, if it has one, keeps its bytes. -/
def detach (s : Store ν β) (l : List ν) (n : ν) (leaf : s.entries (l ++ [n]) = []) : Store ν β where
  node := Function.update s.node (l ++ [n]) none
  entries := Function.update s.entries l ((s.entries l).filter (· ≠ n))
  data := s.data
  next := s.next
  root_dir := by
    rw [Function.update_of_ne (by simp)]
    exact s.root_dir
  parent_dir := by
    intro l' n' present
    have ne : l' ≠ l ++ [n] := by
      rintro rfl
      rw [Function.update_of_ne (by simp)] at present
      have listed := (s.entries_iff _ _).mpr present
      rw [leaf] at listed
      cases listed
    rw [Function.update_of_ne ne]
    by_cases same : l' ++ [n'] = l ++ [n]
    · rw [same, Function.update_self] at present
      exact absurd rfl present
    · rw [Function.update_of_ne same] at present
      exact s.parent_dir _ _ present
  entries_iff := by
    intro l' n'
    by_cases same : l' = l
    · subst same
      rw [Function.update_self]
      by_cases name : n' = n
      · subst name
        simp
      · rw [Function.update_of_ne (by simpa using name), List.mem_filter, s.entries_iff]
        simp [name]
    · rw [Function.update_of_ne same, s.entries_iff, Function.update_of_ne]
      intro both
      exact same (List.append_inj' both rfl).1
  entries_nodup := by
    intro l'
    by_cases same : l' = l
    · subst same
      rw [Function.update_self]
      exact (s.entries_nodup _).filter _
    · rw [Function.update_of_ne same]
      exact s.entries_nodup l'
  ino_lt := by
    intro l' i h
    by_cases same : l' = l ++ [n]
    · rw [same, Function.update_self] at h
      cases h
    · rw [Function.update_of_ne same] at h
      exact s.ino_lt l' i h
  ino_inj := by
    intro l' l'' i h h'
    by_cases same : l' = l ++ [n]
    · rw [same, Function.update_self] at h
      cases h
    · by_cases same' : l'' = l ++ [n]
      · rw [same', Function.update_self] at h'
        cases h'
      · rw [Function.update_of_ne same] at h
        rw [Function.update_of_ne same'] at h'
        exact s.ino_inj l' l'' i h h'

/-! ### System calls on names

Each is `none` where the call fails. -/

/-- Create an empty regular file. -/
def create (s : Store ν β) (l : List ν) : Option (Nat × Store ν β) :=
  match parent l with
  | none => none
  | some (p, n) =>
      if dir : s.node p = some .dir then
        if absent : s.node (p ++ [n]) = none then
          some (s.next, (s.attach p n (.file s.next) (s.next + 1) dir absent (Nat.le_succ _) (by
            intro i same
            cases same
            exact ⟨Nat.lt_succ_self _, fun l' h => Nat.lt_irrefl _ (s.ino_lt l' _ h)⟩)).setData
              s.next [])
        else none
      else none

/-- Create an empty directory. -/
def mkdir (s : Store ν β) (l : List ν) : Option (Store ν β) :=
  match parent l with
  | none => none
  | some (p, n) =>
      if dir : s.node p = some .dir then
        if absent : s.node (p ++ [n]) = none then
          some (s.attach p n .dir s.next dir absent (Nat.le_refl _) (by intro i same; cases same))
        else none
      else none

/-- Remove a name that is not a directory. -/
def unlink (s : Store ν β) (l : List ν) : Option (Store ν β) :=
  match parent l with
  | none => none
  | some (p, n) =>
      if notDir : s.node (p ++ [n]) ≠ none ∧ s.node (p ++ [n]) ≠ some .dir then
        some (s.detach p n (entries_eq_nil notDir.2))
      else none

/-- Remove an empty directory. -/
def rmdir (s : Store ν β) (l : List ν) : Option (Store ν β) :=
  match parent l with
  | none => none
  | some (p, n) =>
      if empty : s.node (p ++ [n]) = some .dir ∧ s.entries (p ++ [n]) = [] then
        some (s.detach p n empty.2)
      else none

theorem unlink_eq_some {s s' : Store ν β} {l : List ν} (h : s.unlink l = some s') :
    (∃ x, s.node l = some x ∧ x ≠ .dir) ∧ s'.node = Function.update s.node l none ∧
      s'.data = s.data ∧ s'.next = s.next := by
  unfold unlink at h
  split at h
  · cases h
  · rename_i p n parts
    cases parent_eq_some parts
    split at h
    · rename_i notDir
      cases h
      refine ⟨?_, rfl, rfl, rfl⟩
      cases here : s.node (p ++ [n]) with
      | none => exact absurd here notDir.1
      | some x => exact ⟨x, rfl, fun same => notDir.2 (by rw [here, same])⟩
    · cases h

theorem unlink_isSome {s : Store ν β} {l : List ν} {x : Node ν} (here : s.node l = some x)
    (notDir : x ≠ .dir) : ∃ s', s.unlink l = some s' := by
  cases parts : parent l with
  | none =>
      have root : l = [] := by
        unfold parent at parts
        split at parts
        · cases parts
        · rename_i last
          simpa using last
      rw [root, s.root_dir] at here
      exact absurd (Option.some.inj here).symm notDir
  | some q =>
      obtain ⟨p, n⟩ := q
      cases parent_eq_some parts
      unfold unlink
      simp only [parent_append]
      rw [dif_pos ⟨by simp [here], by simp [here, notDir]⟩]
      exact ⟨_, rfl⟩

theorem rmdir_eq_some {s s' : Store ν β} {l : List ν} (h : s.rmdir l = some s') :
    s.node l = some .dir ∧ (∀ n, s.node (l ++ [n]) = none) ∧
      s'.node = Function.update s.node l none ∧ s'.data = s.data ∧ s'.next = s.next := by
  unfold rmdir at h
  split at h
  · cases h
  · rename_i p n parts
    cases parent_eq_some parts
    split at h
    · rename_i empty
      cases h
      refine ⟨empty.1, fun m => ?_, rfl, rfl, rfl⟩
      by_contra present
      have listed := (s.entries_iff _ m).mpr present
      rw [empty.2] at listed
      cases listed
    · cases h

theorem create_eq_some {s s' : Store ν β} {l : List ν} {i : Nat}
    (h : s.create l = some (i, s')) :
    i = s.next ∧ s.node l = none ∧ (∃ p n, l = p ++ [n] ∧ s.node p = some .dir) ∧
      s'.node = Function.update s.node l (some (.file i)) ∧
      s'.data = Function.update s.data i [] ∧ s'.next = s.next + 1 := by
  unfold create at h
  split at h
  · cases h
  · rename_i p n parts
    cases parent_eq_some parts
    split at h
    · rename_i dir
      split at h
      · rename_i absent
        cases h
        exact ⟨rfl, absent, ⟨p, n, rfl, dir⟩, rfl, rfl, rfl⟩
      · cases h
    · cases h

theorem create_isSome {s : Store ν β} {p : List ν} {n : ν} (dir : s.node p = some .dir)
    (absent : s.node (p ++ [n]) = none) : ∃ s', s.create (p ++ [n]) = some (s.next, s') := by
  unfold create
  simp only [parent_append]
  rw [dif_pos dir, dif_pos absent]
  exact ⟨_, rfl⟩

theorem mkdir_eq_some {s s' : Store ν β} {l : List ν} (h : s.mkdir l = some s') :
    s.node l = none ∧ (∃ p n, l = p ++ [n] ∧ s.node p = some .dir) ∧
      s'.node = Function.update s.node l (some .dir) ∧ s'.data = s.data ∧ s'.next = s.next := by
  unfold mkdir at h
  split at h
  · cases h
  · rename_i p n parts
    cases parent_eq_some parts
    split at h
    · rename_i dir
      split at h
      · rename_i absent
        cases h
        exact ⟨absent, ⟨p, n, rfl, dir⟩, rfl, rfl, rfl⟩
      · cases h
    · cases h

/-- Remove a name that is not a directory, if it is there at all. -/
def clear (s : Store ν β) (l : List ν) : Option (Store ν β) :=
  if s.node l = none then some s else s.unlink l

theorem clear_eq_some {s s' : Store ν β} {l : List ν} (h : s.clear l = some s') :
    s.node l ≠ some .dir ∧ s'.node = Function.update s.node l none ∧ s'.data = s.data ∧
      s'.next = s.next := by
  unfold clear at h
  split at h
  · rename_i absent
    cases h
    refine ⟨by simp [absent], ?_, rfl, rfl⟩
    rw [← absent, Function.update_eq_self]
  · obtain ⟨⟨x, here, notDir⟩, same⟩ := unlink_eq_some h
    exact ⟨by simp [here, notDir], same⟩

/-- Move a regular file to another name, replacing what is there unless it is a directory. -/
def rename (s : Store ν β) (a b : List ν) : Option (Store ν β) :=
  match ha : s.node a with
  | some (.file i) =>
      if a = b then some s
      else
        match h₁ : s.unlink a with
        | none => none
        | some s₁ =>
            match h₂ : s₁.clear b with
            | none => none
            | some s₂ =>
                match parent b with
                | none => none
                | some (p, n) =>
                    if dir : s₂.node p = some .dir then
                      if absent : s₂.node (p ++ [n]) = none then
                        some (s₂.attach p n (.file i) s₂.next dir absent (Nat.le_refl _) (by
                          intro j same
                          cases same
                          have node₁ := (unlink_eq_some h₁).2
                          have node₂ := (clear_eq_some h₂).2
                          refine ⟨?_, fun l' named => ?_⟩
                          · rw [node₂.2.2, node₁.2.2]
                            exact s.ino_lt a i ha
                          · rw [node₂.1, node₁.1] at named
                            by_cases atB : l' = b
                            · simp [atB] at named
                            · rw [Function.update_of_ne atB] at named
                              by_cases atA : l' = a
                              · simp [atA] at named
                              · rw [Function.update_of_ne atA] at named
                                exact atA (s.ino_inj l' a i named ha)))
                      else none
                    else none
  | _ => none

theorem rename_eq_some {s s' : Store ν β} {a b : List ν} (ne : a ≠ b)
    (h : s.rename a b = some s') :
    ∃ i, s.node a = some (.file i) ∧ s.node b ≠ some .dir ∧
      s'.node = Function.update (Function.update s.node a none) b (some (.file i)) ∧
      s'.data = s.data ∧ s'.next = s.next := by
  unfold rename at h
  split at h
  · rename_i i ha
    rw [if_neg ne] at h
    split at h
    · cases h
    · rename_i s₁ h₁
      split at h
      · cases h
      · rename_i s₂ h₂
        split at h
        · cases h
        · rename_i p n parts
          cases parent_eq_some parts
          split at h
          · split at h
            · obtain ⟨_, node₁, data₁, next₁⟩ := unlink_eq_some h₁
              obtain ⟨notDir, node₂, data₂, next₂⟩ := clear_eq_some h₂
              cases h
              refine ⟨i, ha, ?_, ?_, data₂.trans data₁, next₂.trans next₁⟩
              · rw [node₁, Function.update_of_ne ne.symm] at notDir
                exact notDir
              · simp only [attach, node₂, node₁, Function.update_idem]
            · cases h
          · cases h
  · cases h

theorem rename_isSome {s : Store ν β} {a p : List ν} {n : ν} {i : Nat} (ne : a ≠ p ++ [n])
    (ha : s.node a = some (.file i)) (dir : s.node p = some .dir)
    (notDir : s.node (p ++ [n]) ≠ some .dir) : ∃ s', s.rename a (p ++ [n]) = some s' := by
  have notDirA : (Node.file i : Node ν) ≠ .dir := by simp
  obtain ⟨s₁, h₁⟩ := unlink_isSome ha notDirA
  have node₁ := (unlink_eq_some h₁).2.1
  obtain ⟨s₂, h₂⟩ : ∃ s₂, s₁.clear (p ++ [n]) = some s₂ := by
    have here : s₁.node (p ++ [n]) = s.node (p ++ [n]) := by
      rw [node₁, Function.update_of_ne ne.symm]
    unfold clear
    split
    · exact ⟨_, rfl⟩
    · rename_i present
      cases node : s.node (p ++ [n]) with
      | none => exact absurd (here.trans node) present
      | some x =>
          refine unlink_isSome (here.trans node) (fun same => ?_)
          exact notDir (by rw [node, same])
  have node₂ := (clear_eq_some h₂).2.1
  have dir₂ : s₂.node p = some .dir := by
    have notA : p ≠ a := by
      rintro rfl
      rw [ha] at dir
      cases dir
    rw [node₂, Function.update_of_ne (by simp), node₁, Function.update_of_ne notA]
    exact dir
  have absent₂ : s₂.node (p ++ [n]) = none := by
    rw [node₂, Function.update_self]
  unfold rename
  split
  · rename_i j hj
    rw [if_neg ne]
    split
    · rename_i none₁
      rw [h₁] at none₁
      cases none₁
    · rename_i t₁ some₁
      rw [h₁] at some₁
      cases some₁
      split
      · rename_i none₂
        rw [h₂] at none₂
        cases none₂
      · rename_i t₂ some₂
        rw [h₂] at some₂
        cases some₂
        simp only [parent_append]
        rw [dif_pos dir₂, dif_pos absent₂]
        exact ⟨_, rfl⟩
  · rename_i other
    exact absurd ha (other i)

/-! ### What the calls do to the files

Each of the calls changes the location it is given and no other. -/

theorem create_spec {s s' : Store ν β} {l : List ν} {i : Nat} (h : s.create l = some (i, s')) :
    s'.node l = some (.file i) ∧ s'.fileAt l = some [] ∧
      ∀ l', l' ≠ l → s'.node l' = s.node l' ∧ s'.fileAt l' = s.fileAt l' := by
  obtain ⟨rfl, _, _, node, data, _⟩ := create_eq_some h
  have here : s'.node l = some (.file s.next) := by rw [node, Function.update_self]
  refine ⟨here, ?_, fun l' ne => ?_⟩
  · rw [fileAt_of_node here, data, Function.update_self]
  · have same : s'.node l' = s.node l' := by rw [node, Function.update_of_ne ne]
    refine ⟨same, fileAt_eq_of_node_data same (fun j named => ?_)⟩
    rw [data, Function.update_of_ne (Nat.ne_of_lt (s.ino_lt l' j named))]

/-- A new file changes no path. -/
theorem follow_create {s s' : Store ν β} {l : List ν} {i : Nat} (h : s.create l = some (i, s'))
    (fuel : Nat) (l' : List ν) : s'.follow fuel l' = s.follow fuel l' := by
  refine follow_congr (fun l'' t => ?_) fuel l'
  by_cases same : l'' = l
  · rw [same, (create_spec h).1, (create_eq_some h).2.1]
    simp
  · rw [((create_spec h).2.2 l'' same).1]

theorem create_keeps {s s' : Store ν β} {l l' : List ν} {i : Nat} {x : Node ν}
    (h : s.create l = some (i, s')) (here : s.node l' = some x) : s'.node l' = some x := by
  have other : l' ≠ l := by
    rintro rfl
    rw [(create_eq_some h).2.1] at here
    cases here
  rw [((create_spec h).2.2 l' other).1, here]

theorem unlink_spec {s s' : Store ν β} {l : List ν} (h : s.unlink l = some s') :
    s'.node l = none ∧ ∀ l', l' ≠ l → s'.node l' = s.node l' ∧ s'.fileAt l' = s.fileAt l' := by
  obtain ⟨_, node, data, _⟩ := unlink_eq_some h
  refine ⟨by rw [node, Function.update_self], fun l' ne => ?_⟩
  have same : s'.node l' = s.node l' := by rw [node, Function.update_of_ne ne]
  exact ⟨same, fileAt_eq_of_node_data same (fun j _ => by rw [data])⟩

theorem rename_spec {s s' : Store ν β} {a b : List ν} (ne : a ≠ b) (h : s.rename a b = some s') :
    s'.node a = none ∧ s'.node b = s.node a ∧ s'.fileAt b = s.fileAt a ∧
      ∀ l, l ≠ a → l ≠ b → s'.node l = s.node l ∧ s'.fileAt l = s.fileAt l := by
  obtain ⟨i, here, _, node, data, _⟩ := rename_eq_some ne h
  have atB : s'.node b = some (.file i) := by rw [node, Function.update_self]
  refine ⟨?_, atB.trans here.symm, ?_, fun l neA neB => ?_⟩
  · rw [node, Function.update_of_ne ne, Function.update_self]
  · rw [fileAt_of_node atB, fileAt_of_node here, data]
  · have same : s'.node l = s.node l := by
      rw [node, Function.update_of_ne neB, Function.update_of_ne neA]
    exact ⟨same, fileAt_eq_of_node_data same (fun j _ => by rw [data])⟩

/-! ### Unpacking an archive

An entry of an archive is a location and the bytes to put there. Directories on the way are created
as needed, an existing file is overwritten in place, and a symbolic link is followed. `Unpacks` is
all that unpacking can do, whether it runs to its end or not. -/

/-- Make the location a directory, unless it is one. -/
def ensureDir (s : Store ν β) (l : List ν) : Option (Store ν β) :=
  if s.node l = some .dir then some s else s.mkdir l

/-- Create the directories `rest` below `base`, the outermost first. -/
def mkdirs (s : Store ν β) (base : List ν) : List ν → Option (Store ν β)
  | [] => some s
  | n :: rest => (s.ensureDir (base ++ [n])).bind (fun s' => s'.mkdirs (base ++ [n]) rest)

/-- Write a whole file at a location, creating it if it is absent. -/
def putFile (s : Store ν β) (l : List ν) (bs : List β) : Option (Store ν β) :=
  match s.node l with
  | some (.file i) => some (s.setData i bs)
  | none => (s.create l).map (fun made => made.2.setData made.1 bs)
  | _ => none

/-- How many symbolic links a name may lead through. -/
def maxLinks : Nat := 40

/-- Put one entry of an archive in its place. -/
def place (s : Store ν β) (entry : List ν × List β) : Option (Store ν β) :=
  (s.mkdirs [] entry.1.dropLast).bind (fun s' => s'.putFile (s'.follow maxLinks entry.1) entry.2)

/-- Unpack the entries one after the other. -/
def extract (s : Store ν β) : List (List ν × List β) → Option (Store ν β)
  | [] => some s
  | entry :: rest => (s.place entry).bind (fun s' => s'.extract rest)

/-- Where the entries of an archive land. -/
def Lands (s : Store ν β) (entries : List (List ν × List β)) (l : List ν) : Prop :=
  ∃ entry ∈ entries, s.follow maxLinks entry.1 = l

end Changes

/-- The directories an archive asks for. -/
def Passes (entries : List (List ν × List β)) (l : List ν) : Prop :=
  ∃ entry ∈ entries, l <+: entry.1.dropLast

/-- Nodes stay what they are; new nodes are directories at `passes` or files at `lands`; no file that
    was there before and is not at `lands` changes, whether it has a name or not. -/
structure Extends (s s' : Store ν β) (lands passes : List ν → Prop) : Prop where
  keeps : ∀ l x, s.node l = some x → s'.node l = some x
  fresh : ∀ l x, s.node l = none → s'.node l = some x →
    (x = .dir ∧ passes l) ∨ (lands l ∧ ∃ i, x = .file i)
  data : ∀ i, i < s.next → (∀ l, s.node l = some (.file i) → ¬ lands l) → s'.data i = s.data i
  grows : s.next ≤ s'.next
  news : ∀ l i, s.node l = none → s'.node l = some (.file i) → s.next ≤ i

namespace Extends

variable {s s' s'' : Store ν β} {lands passes lands' passes' : List ν → Prop}

theorem refl (s : Store ν β) (lands passes : List ν → Prop) : Extends s s lands passes where
  keeps _ _ h := h
  fresh l x absent here := by
    rw [absent] at here
    cases here
  data _ _ _ := rfl
  grows := Nat.le_refl _
  news l i absent here := by
    rw [absent] at here
    cases here

theorem mono (ext : Extends s s' lands passes) (weakenL : ∀ l, lands l → lands' l)
    (weakenP : ∀ l, passes l → passes' l) : Extends s s' lands' passes' where
  keeps := ext.keeps
  fresh l x absent here := by
    rcases ext.fresh l x absent here with ⟨dir, on_way⟩ | ⟨at_l, file⟩
    · exact Or.inl ⟨dir, weakenP l on_way⟩
    · exact Or.inr ⟨weakenL l at_l, file⟩
  data i old away := ext.data i old (fun l h at_l => away l h (weakenL l at_l))
  grows := ext.grows
  news := ext.news

theorem trans (first : Extends s s' lands passes) (second : Extends s' s'' lands passes) :
    Extends s s'' lands passes where
  keeps l x h := second.keeps l x (first.keeps l x h)
  fresh l x absent here := by
    cases mid : s'.node l with
    | none => exact second.fresh l x mid here
    | some y =>
        have same : x = y := by
          rw [second.keeps l y mid] at here
          exact (Option.some.inj here).symm
        exact same ▸ first.fresh l y absent mid
  data i old away := by
    rw [second.data i (Nat.lt_of_lt_of_le old first.grows), first.data i old away]
    intro l h at_l
    cases before : s.node l with
    | none => exact absurd (first.news l i before h) (by omega)
    | some y =>
        have same := first.keeps l y before
        rw [h] at same
        exact away l (by rw [before, ← same]) at_l
  grows := Nat.le_trans first.grows second.grows
  news l i absent here := by
    cases mid : s'.node l with
    | none => exact Nat.le_trans first.grows (second.news l i mid here)
    | some y =>
        have same := second.keeps l y mid
        rw [here] at same
        exact first.news l i absent (by rw [mid, same])

/-- Where no entry lands, every file is as before. -/
theorem fileAt_eq (ext : Extends s s' lands passes) {l : List ν} (away : ¬ lands l) :
    s'.fileAt l = s.fileAt l := by
  cases before : s.node l with
  | none =>
      rw [fileAt_of_absent before]
      cases after : s'.node l with
      | none => exact fileAt_of_absent after
      | some x =>
          rcases ext.fresh l x before after with ⟨rfl, _⟩ | ⟨at_l, _⟩
          · simp [fileAt, after]
          · exact absurd at_l away
  | some x =>
      have after := ext.keeps l x before
      cases x with
      | file i =>
          rw [fileAt_of_node before, fileAt_of_node after]
          congr 1
          refine ext.data i (s.ino_lt l i before) (fun l' h at_l => away ?_)
          rwa [s.ino_inj l l' i before h]
      | dir => simp [fileAt, before, after]
      | link t => simp [fileAt, before, after]
      | other => simp [fileAt, before, after]

theorem plain (ext : Extends s s' lands passes) {l : List ν} (before : s.Plain l)
    (off_way : ¬ passes l) : s'.Plain l := by
  rcases before with absent | ⟨i, file⟩
  · cases after : s'.node l with
    | none => exact Or.inl after
    | some x =>
        rcases ext.fresh l x absent after with ⟨_, on_way⟩ | ⟨_, i, rfl⟩
        · exact absurd on_way off_way
        · exact Or.inr ⟨i, after⟩
  · exact Or.inr ⟨i, ext.keeps l _ file⟩

/-- Links are neither made nor removed. -/
theorem link_iff (ext : Extends s s' lands passes) (l t : List ν) :
    s'.node l = some (.link t) ↔ s.node l = some (.link t) := by
  refine ⟨fun after => ?_, ext.keeps l _⟩
  cases before : s.node l with
  | none =>
      rcases ext.fresh l _ before after with ⟨dir, _⟩ | ⟨_, i, file⟩
      · cases dir
      · cases file
  | some x =>
      have same := ext.keeps l x before
      rw [after] at same
      exact same.symm

theorem follow_eq (ext : Extends s s' lands passes) (fuel : Nat) (l : List ν) :
    s'.follow fuel l = s.follow fuel l :=
  follow_congr ext.link_iff fuel l

end Extends

section Unpacking

variable [DecidableEq ν]

theorem extends_mkdir {s s' : Store ν β} {l : List ν} (h : s.mkdir l = some s')
    (lands : List ν → Prop) : Extends s s' lands (· = l) := by
  obtain ⟨absent, _, node, data, next⟩ := mkdir_eq_some h
  constructor
  · intro l' x here
    rw [node, Function.update_of_ne]
    · exact here
    · rintro rfl
      rw [absent] at here
      cases here
  · intro l' x before here
    rw [node] at here
    by_cases same : l' = l
    · subst same
      rw [Function.update_self] at here
      exact Or.inl ⟨(Option.some.inj here).symm, rfl⟩
    · rw [Function.update_of_ne same, before] at here
      cases here
  · intro i _ _
    rw [data]
  · exact Nat.le_of_eq next.symm
  · intro l' i before here
    rw [node] at here
    by_cases same : l' = l
    · subst same
      rw [Function.update_self] at here
      cases here
    · rw [Function.update_of_ne same, before] at here
      cases here

theorem extends_mkdirs {s s' : Store ν β} {base rest : List ν} (h : s.mkdirs base rest = some s')
    (lands : List ν → Prop) : Extends s s' lands (· <+: base ++ rest) := by
  induction rest generalizing s base with
  | nil =>
      cases h
      exact .refl _ lands _
  | cons n rest ih =>
      obtain ⟨s₁, first, rest'⟩ := Option.bind_eq_some_iff.mp h
      have split : base ++ n :: rest = base ++ [n] ++ rest := by simp
      rw [split]
      refine Extends.trans ?_ (ih rest')
      unfold ensureDir at first
      split at first
      · cases first
        exact .refl _ lands _
      · refine (extends_mkdir first lands).mono (fun _ h => h) ?_
        rintro l rfl
        exact List.prefix_append _ _

theorem extends_putFile {s s' : Store ν β} {l : List ν} {bs : List β}
    (h : s.putFile l bs = some s') (passes : List ν → Prop) :
    Extends s s' (· = l) passes ∧ s'.fileAt l = some bs := by
  unfold putFile at h
  split at h
  · rename_i i here
    cases h
    refine ⟨⟨fun _ _ h => h, fun l' x absent now => ?_, fun j _ away => ?_, Nat.le_refl _,
      fun l' j absent now => ?_⟩, fileAt_setData here bs⟩
    · rw [setData_node, absent] at now
      cases now
    · refine s.setData_data_ne (fun same => ?_) bs
      exact away l (same ▸ here) rfl
    · rw [setData_node, absent] at now
      cases now
  · rename_i absent
    obtain ⟨⟨i, s₁⟩, made, rfl⟩ := Option.map_eq_some_iff.mp h
    obtain ⟨rfl, _, _, node, data, next⟩ := create_eq_some made
    have here : s₁.node l = some (.file s.next) := by rw [node, Function.update_self]
    refine ⟨⟨fun l' x before => ?_, fun l' x before now => ?_, fun j old _ => ?_, ?_,
      fun l' j before now => ?_⟩, fileAt_setData here bs⟩
    · rw [setData_node, node, Function.update_of_ne]
      · exact before
      · rintro rfl
        rw [absent] at before
        cases before
    · rw [setData_node, node] at now
      by_cases same : l' = l
      · subst same
        rw [Function.update_self] at now
        exact Or.inr ⟨rfl, s.next, (Option.some.inj now).symm⟩
      · rw [Function.update_of_ne same, before] at now
        cases now
    · have ne : j ≠ s.next := Nat.ne_of_lt old
      rw [setData_data_ne _ ne, data, Function.update_of_ne ne]
    · rw [setData_next, next]
      exact Nat.le_succ _
    · rw [setData_node, node] at now
      by_cases same : l' = l
      · subst same
        rw [Function.update_self] at now
        cases now
        exact Nat.le_refl _
      · rw [Function.update_of_ne same, before] at now
        cases now
  · cases h

/-- What unpacking an archive, or part of it, can do. -/
def Unpacks (s s' : Store ν β) (entries : List (List ν × List β)) : Prop :=
  Extends s s' (s.Lands entries) (Passes entries)

theorem unpacks_place {s s' : Store ν β} {entry : List ν × List β} (h : s.place entry = some s') :
    s.Unpacks s' [entry] := by
  obtain ⟨s₁, dirs, put⟩ := Option.bind_eq_some_iff.mp h
  have first := extends_mkdirs dirs (s.Lands [entry])
  have last := (extends_putFile put (· <+: [] ++ entry.1.dropLast)).1
  refine (first.trans (last.mono ?_ (fun _ h => h))).mono (fun _ h => h) ?_
  · rintro l rfl
    exact ⟨entry, by simp, (first.follow_eq _ _).symm⟩
  · intro l on_way
    exact ⟨entry, by simp, on_way⟩

/-- Unpacking changes nothing but the places its entries land on and the directories on the way. -/
theorem unpacks_extract {s s' : Store ν β} {entries : List (List ν × List β)}
    (h : s.extract entries = some s') : s.Unpacks s' entries := by
  induction entries generalizing s with
  | nil =>
      cases h
      exact Extends.refl _ _ _
  | cons entry rest ih =>
      obtain ⟨s₁, first, rest'⟩ := Option.bind_eq_some_iff.mp h
      have ext := unpacks_place first
      refine Extends.trans (ext.mono ?_ ?_) ((ih rest').mono ?_ ?_)
      · rintro l ⟨e, member, lands⟩
        rw [List.mem_singleton] at member
        exact ⟨e, by simp [member], lands⟩
      · rintro l ⟨e, member, on_way⟩
        rw [List.mem_singleton] at member
        exact ⟨e, by simp [member], on_way⟩
      · rintro l ⟨e, member, lands⟩
        exact ⟨e, List.mem_cons_of_mem _ member, (ext.follow_eq _ _).symm.trans lands⟩
      · rintro l ⟨e, member, on_way⟩
        exact ⟨e, List.mem_cons_of_mem _ member, on_way⟩

end Unpacking

/-! ### What is left alone

`Intact` is the frame of a change: the locations of a set that lead somewhere still do, to the same
contents, and no symbolic link is new. -/

/-- The locations in `K` are as they were. -/
structure Intact (K : List ν → Prop) (s s' : Store ν β) : Prop where
  node : ∀ l x, K l → s.node l = some x → s'.node l = some x
  data : ∀ l i, K l → s.node l = some (.file i) → s'.data i = s.data i
  links : ∀ l t, s'.node l = some (.link t) → s.node l = some (.link t)

namespace Intact

variable {K : List ν → Prop} {s s' s'' : Store ν β}

theorem refl (K : List ν → Prop) (s : Store ν β) : Intact K s s where
  node _ _ _ here := here
  data _ _ _ _ := rfl
  links _ _ link := link

theorem trans (first : Intact K s s') (second : Intact K s' s'') : Intact K s s'' where
  node l x kept here := second.node l x kept (first.node l x kept here)
  data l i kept here :=
    (second.data l i kept (first.node l _ kept here)).trans (first.data l i kept here)
  links l t link := first.links l t (second.links l t link)

theorem fileAt (intact : Intact K s s') {l : List ν} (kept : K l) {bs : List β}
    (here : s.fileAt l = some bs) : s'.fileAt l = some bs := by
  obtain ⟨i, node, data⟩ := fileAt_eq_some_iff.mp here
  rw [fileAt_of_node (intact.node l _ kept node), intact.data l i kept node, data]

/-- A name that is not kept does not lead to one that is, if no link does. -/
theorem follow_not (intact : Intact K s s') (unled : ∀ l t, s.node l = some (.link t) → ¬ K t)
    {l : List ν} (free : ¬ K l) (fuel : Nat) : ¬ K (s'.follow fuel l) := by
  rcases follow_eq_or_link s' fuel l with stays | ⟨l', link⟩
  · rw [stays]
    exact free
  · exact unled l' _ (intact.links l' _ link)

/-- Writing to an inode that no kept location had. -/
theorem write (intact : Intact K s s') {i : Nat} (free : ∀ l, K l → s.node l ≠ some (.file i))
    (bs : List β) : Intact K s (s'.setData i bs) where
  node := intact.node
  data l j kept here := by
    rw [setData_data_ne]
    · exact intact.data l j kept here
    · rintro rfl
      exact free l kept here
  links := intact.links

/-- Unpacking an archive that does not land on kept locations. -/
theorem of_extends {lands passes : List ν → Prop} (ext : Extends s s' lands passes)
    (off : ∀ l, K l → ¬ lands l) : Intact K s s' where
  node l x _ here := ext.keeps l x here
  data l i kept here := by
    apply ext.data i (s.ino_lt l i here)
    intro l' here' at_l'
    rw [s.ino_inj l' l i here' here] at at_l'
    exact off l kept at_l'
  links l t link := (ext.link_iff l t).mp link

section Names

variable [DecidableEq ν]

theorem create {l : List ν} {i : Nat} (made : s.create l = some (i, s')) : Intact K s s' where
  node l' x _ here := create_keeps made here
  data l' j _ here := by
    obtain ⟨rfl, _, _, _, data, _⟩ := create_eq_some made
    rw [data, Function.update_of_ne (Nat.ne_of_lt (s.ino_lt l' j here))]
  links l' t link := by
    obtain ⟨_, _, _, node, _, _⟩ := create_eq_some made
    rw [node] at link
    by_cases same : l' = l
    · rw [same, Function.update_self] at link
      cases link
    · rw [Function.update_of_ne same] at link
      exact link

/-- Removing a name that is not kept, by whichever call. -/
theorem remove {l : List ν} (free : ¬ K l) (node : s'.node = Function.update s.node l none)
    (data : s'.data = s.data) : Intact K s s' where
  node l' x kept here := by
    rw [node, Function.update_of_ne]
    · exact here
    · rintro rfl
      exact free kept
  data l' i _ _ := by
    rw [data]
  links l' t link := by
    rw [node] at link
    by_cases same : l' = l
    · rw [same, Function.update_self] at link
      cases link
    · rw [Function.update_of_ne same] at link
      exact link

theorem unlink {l : List ν} (free : ¬ K l) (gone : s.unlink l = some s') : Intact K s s' := by
  obtain ⟨_, node, data, _⟩ := unlink_eq_some gone
  exact remove free node data

theorem rmdir {l : List ν} (free : ¬ K l) (gone : s.rmdir l = some s') : Intact K s s' := by
  obtain ⟨_, _, node, data, _⟩ := rmdir_eq_some gone
  exact remove free node data

theorem rename {a b : List ν} (freeA : ¬ K a) (freeB : ¬ K b) (moved : s.rename a b = some s') :
    Intact K s s' := by
  by_cases same : a = b
  · subst same
    unfold Store.rename at moved
    split at moved
    · rw [if_pos rfl] at moved
      cases moved
      exact refl K s
    · cases moved
  · obtain ⟨i, _, _, node, data, _⟩ := rename_eq_some same moved
    constructor
    · intro l x kept here
      rw [node, Function.update_of_ne, Function.update_of_ne]
      · exact here
      · rintro rfl
        exact freeA kept
      · rintro rfl
        exact freeB kept
    · intro l j _ _
      rw [data]
    · intro l t link
      rw [node] at link
      by_cases atB : l = b
      · rw [atB, Function.update_self] at link
        cases link
      · rw [Function.update_of_ne atB] at link
        by_cases atA : l = a
        · rw [atA, Function.update_self] at link
          cases link
        · rw [Function.update_of_ne atA] at link
          exact link

end Names

end Intact

end Store

end FileStore
