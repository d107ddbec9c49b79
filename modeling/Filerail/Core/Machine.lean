/-
Module: Filerail.Core.Machine
Layer: Core
Purpose: An operating system that can be computed with. `Does` and `Faults` leave choices open; here
  each call gets one of the answers they allow, so that a run of the program on a given file system
  is a computation. That every call returns is read off it.
Imports: Mathlib.Data.UInt, Filerail.Core.System
Main exports: Fate, performs, botches, machine, does_answers
-/
import Mathlib.Data.UInt
import Filerail.Core.System

namespace Filerail

open FileStore ProgramLogic

variable {lib : Lib}

/-- How a call turns out. The byte is what the user types, if the call is the one that asks. -/
inductive Fate where
  | works
  | fails
  | typed (c : UInt8)
deriving DecidableEq

/-- What `lstat` and `stat` find at a location. -/
def statAt (fs : Store Name UInt8) (l : Loc) : Option Stat :=
  match fs.node l with
  | none => none
  | some (.file i) => some ⟨.reg, (fs.data i).length⟩
  | some .dir => some ⟨.dir, 0⟩
  | some (.link _) => some ⟨.lnk, 0⟩
  | some .other => some ⟨.other, 0⟩

theorem statOf_statAt (fs : Store Name UInt8) (l : Loc) : StatOf fs l (statAt fs l) := by
  unfold statAt
  cases node : fs.node l with
  | none => exact node
  | some x => cases x <;> simp [StatOf, node]

/-- The inode of the regular file a path leads to. -/
def World.fileIno (w : World) (path : CStr) : Option Nat :=
  match w.fs.node (w.target path) with
  | some (.file i) => some i
  | _ => none

theorem World.fileIno_eq_some {w : World} {path : CStr} {i : Nat} (file : w.fileIno path = some i) :
    w.fs.node (w.target path) = some (.file i) := by
  unfold World.fileIno at file
  split at file
  · rename_i here
    cases file
    exact here
  · cases file

theorem World.fileIno_eq_none {w : World} {path : CStr} (other : w.fileIno path = none) (i : Nat) :
    w.fs.node (w.target path) ≠ some (.file i) := by
  intro here
  simp [World.fileIno, here] at other

/-- Empty the file at a path, or create it. -/
def World.truncate (w : World) (path : CStr) : Option (Nat × World) :=
  match w.fileIno path with
  | some i => some (i, { w with fs := w.fs.setData i [] })
  | none => (w.fs.create (w.target path)).map (fun made => (made.1, { w with fs := made.2 }))

/-- The bytes `fwrite` reads from a buffer, with zeros behind its end. -/
def bytesOf (buffer : List UInt8) (n : Nat) : List UInt8 :=
  buffer.take n ++ List.replicate (n - buffer.length) 0

@[simp] theorem length_bytesOf (buffer : List UInt8) (n : Nat) : (bytesOf buffer n).length = n := by
  rw [bytesOf, List.length_append, List.length_take, List.length_replicate]
  omega

theorem take_bytesOf (buffer : List UInt8) (n : Nat) :
    (bytesOf buffer n).take buffer.length = buffer.take n := by
  unfold bytesOf
  by_cases short : buffer.length ≤ n
  · rw [List.take_of_length_le short, List.take_left]
  · rw [Nat.sub_eq_zero_of_le (by omega), List.replicate_zero, List.append_nil]
    exact List.take_of_length_le (by rw [List.length_take]; omega)

/-- The call succeeds, or finds that it cannot. -/
def performs (lib : Lib) (typed : UInt8) (w : World) : (e : Sys lib.md5.Ctx) → Option (e.Resp × World)
  | .getcwd => some (some (render w.cwd), w)
  | .chdir path =>
      if w.fs.node (w.target path) = some .dir then some (true, { w with cwd := w.target path })
      else some (false, w)
  | .lstat path => some (statAt w.fs (w.loc path), w)
  | .stat path => some (statAt w.fs (w.target path), w)
  | .access path _ => some (decide (w.fs.node (w.target path) ≠ none), w)
  | .statvfs _ => some (some (1, 2 ^ 63), w)
  | .fopen path .wb =>
      match w.truncate path with
      | some (i, w') => some (some (.opened i), w')
      | none => some (none, w)
  | .fopen path _ => some ((w.fileIno path).map .opened, w)
  | .fread fp n =>
      some ((((w.fs.data fp.ino).drop fp.pos).take n,
        { fp with pos := fp.pos + (((w.fs.data fp.ino).drop fp.pos).take n).length }), w)
  | .fgetc fp =>
      match (w.fs.data fp.ino)[fp.pos]? with
      | some c => some ((some c, { fp with pos := fp.pos + 1 }), w)
      | none => some ((none, fp), w)
  | .fwrite fp buffer n =>
      some ((n, fp.flushed (fp.pending ++ bytesOf buffer n) 0),
        w.flushed fp (fp.pending ++ bytesOf buffer n) 0)
  | .fflush fp =>
      some (fp.flushed fp.pending fp.pending.length, w.flushed fp fp.pending fp.pending.length)
  | .fclose fp => some ((), w.flushed fp fp.pending fp.pending.length)
  | .fseek fp offset =>
      if offset.toNat < 2 ^ 63 then some (some { fp with pos := offset.toNat }, w)
      else some (none, w)
  | .rename path path' =>
      match w.fs.rename (w.loc path) (w.loc path') with
      | some fs' => some (true, { w with fs := fs' })
      | none => some (false, w)
  | .unlink path =>
      match w.fs.unlink (w.loc path) with
      | some fs' => some (true, { w with fs := fs' })
      | none => some (false, w)
  | .rmdir path =>
      match w.fs.rmdir (w.loc path) with
      | some fs' => some (true, { w with fs := fs' })
      | none => some (false, w)
  | .opendir path =>
      if w.fs.node (w.target path) = some .dir then some (some (w.fs.entries (w.target path)), w)
      else some (none, w)
  | .zipOpen path =>
      match w.truncate path with
      | some (i, w') => some (some ⟨i, [], none⟩, w')
      | none => some (none, w)
  | .zipEntryOpen zip name =>
      some (some { zip with current := some (name, []) }, { w with fs := w.fs.setData zip.ino [] })
  | .zipEntryFwrite zip path =>
      match w.fileIno path, zip.current with
      | some i, some (name, content) =>
          some (some { zip with current := some (name, content ++ w.fs.data i) },
            { w with fs := w.fs.setData zip.ino [] })
      | _, _ => some (none, w)
  | .zipEntryClose zip =>
      match zip.current with
      | some entry =>
          some (some { zip with entries := zip.entries ++ [entry], current := none },
            { w with fs := w.fs.setData zip.ino [] })
      | none => some (none, w)
  | .zipClose none => some ((), w)
  | .zipClose (some zip) =>
      some ((), { w with fs := w.fs.setData zip.ino (lib.zip.archive zip.entries) })
  | .zipCloseWild => some ((), w)
  | .zipExtract path dir =>
      match (w.fs.fileAt (w.target path)).bind lib.zip.entries with
      | some es =>
          match w.fs.extract (placements (w.target dir) es) with
          | some fs' => some (true, { w with fs := fs' })
          | none => some (false, w)
      | none => some (false, w)
  | .md5Final ctx => some (lib.md5.final ctx, w)
  | .setRcvTimeout _ => some (true, w)
  | .scanf => some (typed, w)
  | .crash => none
  | .protocolNotFollowed => some ((), w)
  | .remaining _ => some ((), w)

/-- The call fails, having done nothing. -/
def botches (lib : Lib) (w : World) : (e : Sys lib.md5.Ctx) → Option (e.Resp × World)
  | .getcwd => some (none, w)
  | .chdir _ => some (false, w)
  | .lstat _ => some (none, w)
  | .stat _ => some (none, w)
  | .access _ _ => some (false, w)
  | .statvfs _ => some (none, w)
  | .fopen _ _ => some (none, w)
  | .fread fp n => if 0 < n then some (([], { fp with pos := fp.pos + 0, err := true }), w) else none
  | .fgetc fp => some ((none, { fp with err := true }), w)
  | .fwrite fp buffer n =>
      if 0 < n then
        some ((0, { fp.flushed (fp.pending ++ bytesOf buffer n) 0 with err := true }),
          w.flushed fp (fp.pending ++ bytesOf buffer n) 0)
      else none
  | .fflush fp => some ({ fp.flushed fp.pending 0 with err := true }, w.flushed fp fp.pending 0)
  | .fclose fp => some ((), w.flushed fp fp.pending 0)
  | .fseek _ _ => some (none, w)
  | .rename _ _ => some (false, w)
  | .unlink _ => some (false, w)
  | .rmdir _ => some (false, w)
  | .opendir _ => some (none, w)
  | .zipOpen _ => some (none, w)
  | .zipEntryOpen zip _ => some (none, { w with fs := w.fs.setData zip.ino [] })
  | .zipEntryFwrite zip _ => some (none, { w with fs := w.fs.setData zip.ino [] })
  | .zipEntryClose zip => some (none, { w with fs := w.fs.setData zip.ino [] })
  | .zipClose (some zip) => some ((), { w with fs := w.fs.setData zip.ino [] })
  | .zipExtract _ _ => some (false, w)
  | .setRcvTimeout _ => some (false, w)
  | _ => none

theorem World.truncate_cases (w : World) (path : CStr) :
    (∃ i, w.fs.node (w.target path) = some (.file i) ∧
        w.truncate path = some (i, { w with fs := w.fs.setData i [] })) ∨
      (∃ i fs', w.fs.create (w.target path) = some (i, fs') ∧
        w.truncate path = some (i, { w with fs := fs' })) ∨
      ((∀ i, w.fs.node (w.target path) ≠ some (.file i)) ∧ w.fs.create (w.target path) = none ∧
        w.truncate path = none) := by
  unfold World.truncate
  cases file : w.fileIno path with
  | some i => exact Or.inl ⟨i, World.fileIno_eq_some file, rfl⟩
  | none =>
      cases made : w.fs.create (w.target path) with
      | some new => exact Or.inr (Or.inl ⟨new.1, new.2, rfl, rfl⟩)
      | none => exact Or.inr (Or.inr ⟨World.fileIno_eq_none file, rfl, rfl⟩)

theorem does_performs {typed : UInt8} {w w' : World} {e : Sys lib.md5.Ctx} {r : e.Resp}
    (answer : performs lib typed w e = some (r, w')) : Does lib w e r w' := by
  cases e with
  | getcwd | md5Final _ | setRcvTimeout _ | fread _ _ | fflush _ =>
      cases answer
      exact ⟨rfl, rfl⟩
  | scanf | zipCloseWild | protocolNotFollowed | remaining _ | fclose _ =>
      cases answer
      rfl
  | crash => cases answer
  | lstat path | stat path =>
      cases answer
      exact ⟨statOf_statAt _ _, rfl⟩
  | statvfs path =>
      cases answer
      exact ⟨⟨_, _, rfl, by decide⟩, rfl⟩
  | access path mode =>
      cases answer
      exact ⟨decide_eq_true_iff, rfl⟩
  | chdir path =>
      simp only [performs] at answer
      split at answer
      · rename_i dir
        cases answer
        exact Or.inl ⟨rfl, dir, rfl⟩
      · rename_i not_dir
        cases answer
        exact Or.inr ⟨rfl, not_dir, rfl⟩
  | fopen path mode =>
      cases mode with
      | wb =>
          simp only [performs] at answer
          rcases World.truncate_cases w path with
            ⟨i, file, same⟩ | ⟨i, fs', made, same⟩ | ⟨other, stuck, same⟩
          · rw [same] at answer
            cases answer
            exact Or.inl ⟨i, file, rfl, rfl⟩
          · rw [same] at answer
            cases answer
            exact Or.inr (Or.inl ⟨i, fs', made, rfl, rfl⟩)
          · rw [same] at answer
            cases answer
            exact Or.inr (Or.inr ⟨rfl, other, stuck, rfl⟩)
      | rb | rPlusB =>
          cases file : w.fileIno path with
          | some i =>
              simp only [performs, file] at answer
              cases answer
              exact Or.inl ⟨i, World.fileIno_eq_some file, rfl, rfl⟩
          | none =>
              simp only [performs, file] at answer
              cases answer
              exact Or.inr ⟨rfl, World.fileIno_eq_none file, rfl⟩
  | fgetc fp =>
      cases byte : (w.fs.data fp.ino)[fp.pos]? with
      | some c =>
          simp only [performs, byte] at answer
          cases answer
          exact Or.inl ⟨c, byte, rfl, rfl⟩
      | none =>
          simp only [performs, byte] at answer
          cases answer
          exact Or.inr ⟨byte, rfl, rfl⟩
  | fwrite fp buffer n =>
      cases answer
      exact ⟨bytesOf buffer n, 0, length_bytesOf _ _, take_bytesOf _ _, rfl, rfl⟩
  | fseek fp offset =>
      simp only [performs] at answer
      split at answer
      · rename_i small
        cases answer
        exact Or.inl ⟨small, rfl, rfl⟩
      · rename_i large
        cases answer
        exact Or.inr ⟨Nat.not_lt.mp large, rfl, rfl⟩
  | rename path path' =>
      cases moved : w.fs.rename (w.loc path) (w.loc path') with
      | some fs' =>
          simp only [performs, moved] at answer
          cases answer
          exact Or.inl ⟨fs', moved, rfl, rfl⟩
      | none =>
          simp only [performs, moved] at answer
          cases answer
          exact Or.inr ⟨moved, rfl, rfl⟩
  | unlink path =>
      cases gone : w.fs.unlink (w.loc path) with
      | some fs' =>
          simp only [performs, gone] at answer
          cases answer
          exact Or.inl ⟨fs', gone, rfl, rfl⟩
      | none =>
          simp only [performs, gone] at answer
          cases answer
          exact Or.inr ⟨gone, rfl, rfl⟩
  | rmdir path =>
      cases gone : w.fs.rmdir (w.loc path) with
      | some fs' =>
          simp only [performs, gone] at answer
          cases answer
          exact Or.inl ⟨fs', gone, rfl, rfl⟩
      | none =>
          simp only [performs, gone] at answer
          cases answer
          exact Or.inr ⟨gone, rfl, rfl⟩
  | opendir path =>
      simp only [performs] at answer
      split at answer
      · rename_i dir
        cases answer
        exact Or.inl ⟨dir, ⟨_, rfl, List.Perm.refl _⟩, rfl⟩
      · rename_i not_dir
        cases answer
        exact Or.inr ⟨not_dir, rfl, rfl⟩
  | zipOpen path =>
      simp only [performs] at answer
      rcases World.truncate_cases w path with
        ⟨i, file, same⟩ | ⟨i, fs', made, same⟩ | ⟨other, stuck, same⟩
      · rw [same] at answer
        cases answer
        exact Or.inl ⟨i, file, rfl, rfl⟩
      · rw [same] at answer
        cases answer
        exact Or.inr (Or.inl ⟨i, fs', made, rfl, rfl⟩)
      · rw [same] at answer
        cases answer
        exact Or.inr (Or.inr ⟨rfl, other, stuck, rfl⟩)
  | zipEntryOpen zip name =>
      cases answer
      exact ⟨_, rfl, rfl⟩
  | zipEntryFwrite zip path =>
      cases file : w.fileIno path with
      | none =>
          simp only [performs, file] at answer
          cases answer
          exact Or.inr ⟨rfl, rfl, Or.inr (World.fileIno_eq_none file)⟩
      | some i =>
          cases entry : zip.current with
          | none =>
              simp only [performs, file, entry] at answer
              cases answer
              exact Or.inr ⟨rfl, rfl, Or.inl entry⟩
          | some e =>
              simp only [performs, file, entry] at answer
              cases answer
              exact Or.inl ⟨i, _, _, _, World.fileIno_eq_some file, entry, rfl, rfl⟩
  | zipEntryClose zip =>
      cases entry : zip.current with
      | none =>
          simp only [performs, entry] at answer
          cases answer
          exact Or.inr ⟨entry, rfl, rfl⟩
      | some e =>
          simp only [performs, entry] at answer
          cases answer
          exact Or.inl ⟨e, _, entry, rfl, rfl⟩
  | zipClose zip =>
      cases zip with
      | none =>
          cases answer
          rfl
      | some zip =>
          cases answer
          exact ⟨_, fun _ => rfl, rfl⟩
  | zipExtract path dir =>
      cases content : w.fs.fileAt (w.target path) with
      | none =>
          simp only [performs, content, Option.bind_none] at answer
          cases answer
          exact Or.inr (Or.inr ⟨by rw [content]; rfl, rfl, rfl⟩)
      | some bytes =>
          cases read : lib.zip.entries bytes with
          | none =>
              simp only [performs, content, Option.bind_some, read] at answer
              cases answer
              exact Or.inr (Or.inr ⟨by rw [content]; exact read, rfl, rfl⟩)
          | some es =>
              simp only [performs, content, Option.bind_some, read] at answer
              cases unpacked : w.fs.extract (placements (w.target dir) es) with
              | some fs' =>
                  simp only [unpacked] at answer
                  cases answer
                  exact Or.inl ⟨bytes, es, fs', content, read, unpacked, rfl, rfl⟩
              | none =>
                  simp only [unpacked] at answer
                  cases answer
                  exact Or.inr (Or.inl ⟨bytes, es, w.fs, content, read,
                    Store.Extends.refl _ _ _, rfl, rfl⟩)

theorem faults_botches {w w' : World} {e : Sys lib.md5.Ctx} {r : e.Resp}
    (answer : botches lib w e = some (r, w')) : Faults lib w e r w' := by
  cases e with
  | getcwd | chdir _ | lstat _ | stat _ | access _ _ | statvfs _ | fopen _ _ | fgetc _ | fseek _ _
  | rename _ _ | unlink _ | rmdir _ | opendir _ | zipOpen _ | zipExtract _ _ | setRcvTimeout _ =>
      cases answer
      exact ⟨rfl, rfl⟩
  | fread fp n =>
      simp only [botches] at answer
      split at answer
      · rename_i some_bytes
        cases answer
        exact ⟨[], some_bytes, List.nil_prefix, rfl, rfl⟩
      · cases answer
  | fwrite fp buffer n =>
      simp only [botches] at answer
      split at answer
      · rename_i some_bytes
        cases answer
        exact ⟨bytesOf buffer n, 0, 0, length_bytesOf _ _, take_bytesOf _ _, some_bytes, rfl, rfl⟩
      · cases answer
  | fflush fp =>
      cases answer
      exact ⟨0, rfl, rfl⟩
  | fclose fp =>
      cases answer
      exact ⟨0, rfl⟩
  | zipEntryOpen zip name | zipEntryFwrite zip path | zipEntryClose zip =>
      cases answer
      exact ⟨rfl, _, rfl⟩
  | zipClose zip =>
      cases zip with
      | none => cases answer
      | some zip =>
          cases answer
          exact ⟨_, rfl⟩
  | _ => cases answer

/-- The machine, with or without failing calls. -/
def machine (lib : Lib) (faulty : Prop) [Decidable faulty] : Player (sysSem lib faulty) Fate where
  answer
    | .works, w, e => performs lib 89 w e
    | .typed c, w, e => performs lib c w e
    | .fails, w, e => if faulty then botches lib w e else none
  sound := by
    intro fate w e r w' answer
    cases fate with
    | works => exact Or.inl (does_performs answer)
    | typed c => exact Or.inl (does_performs answer)
    | fails =>
        simp only at answer
        split at answer
        · rename_i fault
          exact Or.inr ⟨fault, faults_botches answer⟩
        · cases answer

/-- Every call but the death of the process returns. -/
theorem does_answers (w : World) (e : Sys lib.md5.Ctx) (alive : e ≠ .crash) :
    ∃ r w', Does lib w e r w' := by
  have returns : ∃ out, performs lib 89 w e = some out := by
    cases e with
    | crash => exact absurd rfl alive
    | fopen path mode =>
        cases mode with
        | wb =>
            simp only [performs]
            split <;> exact ⟨_, rfl⟩
        | rb | rPlusB => exact ⟨_, rfl⟩
    | zipClose zip => cases zip <;> exact ⟨_, rfl⟩
    | zipEntryFwrite zip path | zipExtract path dir =>
        simp only [performs]
        split
        · first | exact ⟨_, rfl⟩ | (split <;> exact ⟨_, rfl⟩)
        · exact ⟨_, rfl⟩
    | chdir _ | fgetc _ | fseek _ _ | rename _ _ | unlink _ | rmdir _ | opendir _ | zipOpen _
    | zipEntryClose _ =>
        simp only [performs]
        split <;> exact ⟨_, rfl⟩
    | _ => exact ⟨_, rfl⟩
  obtain ⟨⟨r, w'⟩, answer⟩ := returns
  exact ⟨r, w', does_performs answer⟩

end Filerail
