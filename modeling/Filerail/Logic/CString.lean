/-
Module: Filerail.Logic.CString
Layer: Logic (general library)
Purpose: Strings that end with a terminator, in buffers of a fixed size, over an arbitrary type of
  characters. A buffer has its size in its type, and a write that would leave it answers `none`, so
  that a program that composes strings is a program that may overrun. `Holds` says that a buffer
  contains a string and its terminator; the rules say when a copy, an append and a composition fit
  and what the buffer holds then.
Imports: Mathlib.Data.Vector.Basic
Main exports: CString.text, CString.store, CString.copy, CString.append, CString.compose,
  CString.Holds, CString.bind_isSome_iff, CString.compose_isSome_iff, CString.compose_holds
-/
import Mathlib.Data.Vector.Basic

namespace CString

variable {α : Type} {n : Nat}

/-- Write to a buffer from a position on, unless that goes beyond its end. -/
def store (buffer : List.Vector α n) (pos : Nat) (xs : List α) : Option (List.Vector α n) :=
  if fits : pos + xs.length ≤ n then
    some ⟨buffer.toList.take pos ++ xs ++ buffer.toList.drop (pos + xs.length), by
      simp only [List.length_append, List.length_take, List.length_drop, List.Vector.toList_length]
      omega⟩
  else none

theorem store_isSome_iff (buffer : List.Vector α n) (pos : Nat) (xs : List α) :
    (store buffer pos xs).isSome ↔ pos + xs.length ≤ n := by
  unfold store
  split
  · rename_i fits
    exact ⟨fun _ => fits, fun _ => rfl⟩
  · rename_i beyond
    constructor
    · intro impossible
      cases impossible
    · intro fits
      exact absurd fits beyond

theorem toList_store {buffer buffer' : List.Vector α n} {pos : Nat} {xs : List α}
    (stored : store buffer pos xs = some buffer') :
    buffer'.toList = buffer.toList.take pos ++ xs ++ buffer.toList.drop (pos + xs.length) := by
  unfold store at stored
  split at stored
  · cases stored
    rfl
  · cases stored

/-! ### Strings -/

/-- A program that writes to buffers overruns none when its first step does not and what follows
    does not. -/
theorem bind_isSome_iff {β γ : Type} {first : Option β} {next : β → Option γ} {here rest : Prop}
    (fits : first.isSome ↔ here) (goes_on : ∀ b, first = some b → ((next b).isSome ↔ rest)) :
    (first.bind next).isSome ↔ here ∧ rest := by
  cases first with
  | none =>
      constructor
      · intro impossible
        cases impossible
      · intro both
        exact absurd (fits.mpr both.1) Bool.false_ne_true
  | some b =>
      rw [Option.bind_some, goes_on b rfl]
      exact ⟨fun holds => ⟨fits.mp rfl, holds⟩, And.right⟩

/-- The last step of such a program. -/
theorem last_isSome_iff {β γ : Type} {last : Option β} (result : β → γ) {here : Prop}
    (fits : last.isSome ↔ here) : (last.bind (fun b => some (result b))).isSome ↔ here := by
  rw [← fits]
  cases last <;> rfl

section Strings

variable (nul : α)

/-- The buffer starts with the string and its terminator. -/
structure Holds (buffer : List.Vector α n) (s : List α) : Prop where
  clean : nul ∉ s
  front : s ++ [nul] <+: buffer.toList

/-- `strcpy` -/
def copy (buffer : List.Vector α n) (s : List α) : Option (List.Vector α n) :=
  store buffer 0 (s ++ [nul])

variable [DecidableEq α]

/-- The string that starts where some cells start. -/
def text (cells : List α) : List α :=
  cells.takeWhile (· ≠ nul)

/-- `strcat` -/
def append (buffer : List.Vector α n) (s : List α) : Option (List.Vector α n) :=
  store buffer (text nul buffer.toList).length (s ++ [nul])

/-- Copy a first string into a buffer and append others. -/
def compose (buffer : List.Vector α n) (first : List α) (rest : List (List α)) :
    Option (List.Vector α n) :=
  (copy nul buffer first).bind (rest.foldlM (append nul))

end Strings

section Rules

variable {nul : α} {buffer buffer' : List.Vector α n} {s t : List α}

theorem Holds.length_lt (holds : Holds nul buffer s) : s.length < n := by
  have bound := holds.front.length_le
  rw [List.length_append, List.length_singleton, List.Vector.toList_length] at bound
  exact bound

theorem copy_isSome_iff (nul : α) (buffer : List.Vector α n) (s : List α) :
    (copy nul buffer s).isSome ↔ s.length < n := by
  rw [copy, store_isSome_iff, List.length_append, List.length_singleton]
  omega

theorem copy_holds (clean : nul ∉ s) (copied : copy nul buffer s = some buffer') :
    Holds nul buffer' s where
  clean := clean
  front := by
    rw [toList_store copied, List.take_zero, List.nil_append]
    exact List.prefix_append _ _

variable [DecidableEq α]

theorem text_append {s : List α} (clean : nul ∉ s) (rest : List α) :
    text nul (s ++ rest) = s ++ text nul rest := by
  unfold text
  rw [List.takeWhile_append_of_pos]
  intro c member
  simp only [ne_eq, decide_eq_true_eq]
  intro same
  exact clean (same ▸ member)

@[simp] theorem text_nul (rest : List α) : text nul (nul :: rest) = [] := by
  simp [text]

theorem nul_not_mem_text (cells : List α) : nul ∉ text nul cells := by
  intro member
  have other := List.all_takeWhile (p := fun c => decide (c ≠ nul)) (l := cells)
  simp only [List.all_eq_true] at other
  simpa using other nul member

theorem Holds.text (holds : Holds nul buffer s) : CString.text nul buffer.toList = s := by
  obtain ⟨rest, split⟩ := holds.front
  rw [← split, List.append_assoc, text_append holds.clean]
  simp

theorem append_isSome_iff (holds : Holds nul buffer s) :
    (append nul buffer t).isSome ↔ s.length + t.length < n := by
  rw [append, store_isSome_iff, holds.text, List.length_append, List.length_singleton]
  omega

theorem append_holds (holds : Holds nul buffer s) (clean : nul ∉ t)
    (appended : append nul buffer t = some buffer') : Holds nul buffer' (s ++ t) where
  clean := by
    rw [List.mem_append, not_or]
    exact ⟨holds.clean, clean⟩
  front := by
    obtain ⟨rest, split⟩ := holds.front
    rw [toList_store appended, holds.text]
    have kept : buffer.toList.take s.length = s := by
      rw [← split, List.append_assoc]
      exact List.take_left
    rw [kept, List.append_assoc s t, ← List.append_assoc s]
    exact List.prefix_append _ _

/-- Appending to a buffer that already holds the first part. -/
theorem foldlM_append {rest : List (List α)} (clean : ∀ t ∈ rest, nul ∉ t) :
    ∀ {buffer : List.Vector α n} {s : List α}, Holds nul buffer s →
      ((rest.foldlM (append nul) buffer).isSome ↔ s.length + rest.flatten.length < n) ∧
        ∀ buffer', rest.foldlM (append nul) buffer = some buffer' →
          Holds nul buffer' (s ++ rest.flatten) := by
  induction rest with
  | nil =>
      intro buffer s holds
      constructor
      · simpa using holds.length_lt
      · intro buffer' same
        cases same
        simpa using holds
  | cons t rest ih =>
      intro buffer s holds
      rw [List.foldlM_cons, List.flatten_cons]
      cases appended : append nul buffer t with
      | none =>
          have short := append_isSome_iff (t := t) holds
          rw [appended] at short
          constructor
          · simp only [Option.bind_eq_bind, Option.bind_none, Option.isSome_none,
              Bool.false_eq_true, false_iff] at short ⊢
            rw [List.length_append]
            omega
          · intro buffer' impossible
            cases impossible
      | some between =>
          have held := append_holds holds (clean t List.mem_cons_self) appended
          obtain ⟨fits, result⟩ := ih (fun t member => clean t (List.mem_cons_of_mem _ member)) held
          rw [List.append_assoc] at result
          constructor
          · rw [Option.bind_eq_bind, Option.bind_some, fits, List.length_append,
              List.length_append]
            omega
          · exact result

/-- A composition fits when its length is less than the size of the buffer. -/
theorem compose_isSome_iff {rest : List (List α)} (first : nul ∉ s)
    (clean : ∀ t ∈ rest, nul ∉ t) :
    (compose nul buffer s rest).isSome ↔ s.length + rest.flatten.length < n := by
  unfold compose
  cases copied : copy nul buffer s with
  | none =>
      have short := copy_isSome_iff nul buffer s
      rw [copied] at short
      simp only [Option.bind_none, Option.isSome_none, Bool.false_eq_true, false_iff] at short ⊢
      omega
  | some between =>
      rw [Option.bind_some]
      exact (foldlM_append clean (copy_holds first copied)).1

/-- A composition that fits is there. -/
theorem compose_holds {rest : List (List α)} (first : nul ∉ s) (clean : ∀ t ∈ rest, nul ∉ t)
    (composed : compose nul buffer s rest = some buffer') :
    Holds nul buffer' (s ++ rest.flatten) := by
  obtain ⟨between, copied, appended⟩ := Option.bind_eq_some_iff.mp composed
  exact (foldlM_append clean (copy_holds first copied)).2 _ appended

end Rules

end CString
