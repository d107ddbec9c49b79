/-
Module: Filerail.Core.System
Layer: Core
Purpose: The operating system and the libraries the program runs on. `Sys` is the signature of the
  calls the code makes, one constructor for each; `Does` says what a call answers when nothing goes
  wrong, `Faults` how it may fail. Streams are values that carry their position and the bytes the C
  library has not yet handed to the kernel, so that a process that is killed loses exactly those.
  OpenSSL and the zip library are parameters, with the laws the code relies on as fields.
Imports: Filerail.Core.Protocol, Filerail.Logic.FileStore, Filerail.Logic.Program
Main exports: Lib, Stream, Zip, Stat, World, Sys, Sys.Resp, Does, Faults, sysSem
-/
import Filerail.Core.Protocol
import Filerail.Logic.FileStore
import Filerail.Logic.Program

namespace Filerail

open FileStore ProgramLogic

/-! ### Libraries -/

/-- `MD5_Init`, `MD5_Update` and `MD5_Final` of OpenSSL. -/
structure Md5 where
  Ctx : Type
  init : Ctx
  update : Ctx → List UInt8 → Ctx
  final : Ctx → Hash
  /-- MD5 of a byte string -/
  digest : List UInt8 → Hash
  /-- Consecutive chunks give the digest of their concatenation. -/
  final_foldl : ∀ chunks : List (List UInt8),
    final (chunks.foldl update init) = digest chunks.flatten

/-- An AES-128 key or initialisation vector. -/
abbrev AesBlock := List.Vector UInt8 AES_KEY_SIZE

/-- A transfer buffer. -/
abbrev Buffer := List.Vector UInt8 BUFFER_SIZE

/-- AES in CBC mode, as OpenSSL offers it, on one transfer buffer. -/
structure Aes where
  EncKey : Type
  DecKey : Type
  setEncryptKey : AesBlock → Option EncKey
  setDecryptKey : AesBlock → Option DecKey
  cbcEncrypt : EncKey → AesBlock → Buffer → Buffer
  cbcDecrypt : DecKey → AesBlock → Buffer → Buffer
  /-- A key of the right length is accepted. -/
  setEncryptKey_isSome : ∀ key, (setEncryptKey key).isSome
  setDecryptKey_isSome : ∀ key, (setDecryptKey key).isSome
  /-- Decryption with equal key and vector inverts encryption. -/
  decrypt_encrypt : ∀ key iv ek dk buffer, setEncryptKey key = some ek → setDecryptKey key = some dk →
    cbcDecrypt dk iv (cbcEncrypt ek iv buffer) = buffer

/-- What an archive holds: the name and the content of each file. -/
abbrev Entries := List (CStr × List UInt8)

/-- The archive format of the zip library. -/
structure ZipFormat where
  archive : Entries → List UInt8
  entries : List UInt8 → Option Entries
  entries_archive : ∀ es, entries (archive es) = some es

/-- The libraries the program is linked with. -/
structure Lib where
  md5 : Md5
  aes : Aes
  zip : ZipFormat

/-! ### Objects of the C library -/

/-- `FILE *`: the file, the position of the next byte to transfer, what was written but not yet
    flushed, and the error indicator. -/
structure Stream where
  ino : Nat
  pos : Nat
  pending : List UInt8
  err : Bool
deriving DecidableEq

/-- A stream as `fopen` returns it. -/
def Stream.opened (ino : Nat) : Stream where
  ino := ino
  pos := 0
  pending := []
  err := false

/-- The stream after the first `j` bytes of `bytes`, all there is to write, went to the kernel. -/
def Stream.flushed (fp : Stream) (bytes : List UInt8) (j : Nat) : Stream :=
  { fp with pos := fp.pos + (bytes.take j).length, pending := bytes.drop j }

/-- `struct zip_t *` opened for writing. -/
structure Zip where
  ino : Nat
  entries : Entries
  current : Option (CStr × List UInt8)
deriving DecidableEq

/-- The file type of `st_mode`. -/
inductive Kind where
  | reg
  | dir
  | lnk
  | other
deriving DecidableEq, Repr

/-- `struct stat` -/
structure Stat where
  st_mode : Kind
  st_size : Nat
deriving DecidableEq

/-- How `fopen` is asked to open a file. -/
inductive Mode where
  | rb
  | wb
  | rPlusB
deriving DecidableEq, Repr

/-- What `access` is asked for. -/
inductive Access where
  | r
  | w
deriving DecidableEq, Repr

/-! ### The world of a process -/

/-- The file system and the current directory. -/
structure World where
  fs : Store Name UInt8
  cwd : Loc

/-- The location a path names, its last component not followed. -/
def World.loc (w : World) (path : CStr) : Loc :=
  resolve w.cwd path

/-- The location a path leads to. -/
def World.target (w : World) (path : CStr) : Loc :=
  w.fs.follow Store.maxLinks (w.loc path)

/-- The world after the first `j` bytes of `bytes` were written to a stream. -/
def World.flushed (w : World) (fp : Stream) (bytes : List UInt8) (j : Nat) : World :=
  { w with fs := w.fs.setData fp.ino (splice (w.fs.data fp.ino) fp.pos (bytes.take j)) }

/-- Where the entries of an archive go when it is extracted into a directory. -/
def placements (dir : Loc) (entries : Entries) : List (Loc × List UInt8) :=
  entries.map (fun entry => (walk dir [] entry.1, entry.2))

/-! ### Calls -/

/-- The calls the program makes. `zipCloseWild` closes a zip pointer that was never set, `crash` is
    the death of the process by a signal, `protocolNotFollowed` marks the branches the code labels so,
    and `remaining` shows the bytes a transfer loop still has to move; the last two have no effect. -/
inductive Sys (Ctx : Type) where
  | getcwd
  | chdir (path : CStr)
  | lstat (path : CStr)
  | stat (path : CStr)
  | access (path : CStr) (mode : Access)
  | statvfs (path : CStr)
  | fopen (path : CStr) (mode : Mode)
  | fread (fp : Stream) (n : Nat)
  | fgetc (fp : Stream)
  | fwrite (fp : Stream) (buffer : List UInt8) (n : Nat)
  | fflush (fp : Stream)
  | fclose (fp : Stream)
  | fseek (fp : Stream) (offset : UInt64)
  | rename (path path' : CStr)
  | unlink (path : CStr)
  | rmdir (path : CStr)
  | opendir (path : CStr)
  | zipOpen (path : CStr)
  | zipEntryOpen (zip : Zip) (name : CStr)
  | zipEntryFwrite (zip : Zip) (path : CStr)
  | zipEntryClose (zip : Zip)
  | zipClose (zip : Option Zip)
  | zipCloseWild
  | zipExtract (path dir : CStr)
  | md5Final (ctx : Ctx)
  | setRcvTimeout (seconds : Nat)
  | scanf
  | crash
  | protocolNotFollowed
  | remaining (size : UInt64)

/-- What each call returns. `none` and `false` are the failures. -/
def Sys.Resp {Ctx : Type} : Sys Ctx → Type
  | .getcwd => Option CStr
  | .chdir _ => Bool
  | .lstat _ => Option Stat
  | .stat _ => Option Stat
  | .access _ _ => Bool
  | .statvfs _ => Option (UInt64 × UInt64)
  | .fopen _ _ => Option Stream
  | .fread _ _ => List UInt8 × Stream
  | .fgetc _ => Option UInt8 × Stream
  | .fwrite _ _ _ => Nat × Stream
  | .fflush _ => Stream
  | .fclose _ => Unit
  | .fseek _ _ => Option Stream
  | .rename _ _ => Bool
  | .unlink _ => Bool
  | .rmdir _ => Bool
  | .opendir _ => Option (List Name)
  | .zipOpen _ => Option Zip
  | .zipEntryOpen _ _ => Option Zip
  | .zipEntryFwrite _ _ => Option Zip
  | .zipEntryClose _ => Option Zip
  | .zipClose _ => Unit
  | .zipCloseWild => Unit
  | .zipExtract _ _ => Bool
  | .md5Final _ => Hash
  | .setRcvTimeout _ => Bool
  | .scanf => UInt8
  | .crash => Empty
  | .protocolNotFollowed => Unit
  | .remaining _ => Unit

/-- What `lstat` and `stat` say about a location. The size of what is not a regular file is left
    open. -/
def StatOf (fs : Store Name UInt8) (l : Loc) : Option Stat → Prop
  | none => fs.node l = none
  | some st =>
      match fs.node l with
      | some (.file i) => st = ⟨.reg, (fs.data i).length⟩
      | some .dir => st.st_mode = .dir
      | some (.link _) => st.st_mode = .lnk
      | some .other => st.st_mode = .other
      | none => False

/-- A call that does what it is there for, or finds that it cannot. -/
def Does (lib : Lib) (w : World) : (e : Sys lib.md5.Ctx) → e.Resp → World → Prop
  | .getcwd, r, w' => r = some (render w.cwd) ∧ w' = w
  | .chdir path, r, w' =>
      (r = true ∧ w.fs.node (w.target path) = some .dir ∧ w' = { w with cwd := w.target path }) ∨
      (r = false ∧ w.fs.node (w.target path) ≠ some .dir ∧ w' = w)
  | .lstat path, r, w' => StatOf w.fs (w.loc path) r ∧ w' = w
  | .stat path, r, w' => StatOf w.fs (w.target path) r ∧ w' = w
  | .access path _, r, w' => (r = true ↔ w.fs.node (w.target path) ≠ none) ∧ w' = w
  | .statvfs _, r, w' => (∃ frsize bavail, r = some (frsize, bavail) ∧ frsize ≠ 0) ∧ w' = w
  | .fopen path .wb, r, w' =>
      (∃ i, w.fs.node (w.target path) = some (.file i) ∧ r = some (.opened i) ∧
        w' = { w with fs := w.fs.setData i [] }) ∨
      (∃ i fs', w.fs.create (w.target path) = some (i, fs') ∧ r = some (.opened i) ∧
        w' = { w with fs := fs' }) ∨
      (r = none ∧ (∀ i, w.fs.node (w.target path) ≠ some (.file i)) ∧
        w.fs.create (w.target path) = none ∧ w' = w)
  | .fopen path _, r, w' =>
      (∃ i, w.fs.node (w.target path) = some (.file i) ∧ r = some (.opened i) ∧ w' = w) ∨
      (r = none ∧ (∀ i, w.fs.node (w.target path) ≠ some (.file i)) ∧ w' = w)
  | .fread fp n, r, w' =>
      r = (((w.fs.data fp.ino).drop fp.pos).take n,
        { fp with pos := fp.pos + (((w.fs.data fp.ino).drop fp.pos).take n).length }) ∧ w' = w
  | .fgetc fp, r, w' =>
      (∃ c, (w.fs.data fp.ino)[fp.pos]? = some c ∧ r = (some c, { fp with pos := fp.pos + 1 }) ∧
        w' = w) ∨
      ((w.fs.data fp.ino)[fp.pos]? = none ∧ r = (none, fp) ∧ w' = w)
  | .fwrite fp buffer n, r, w' =>
      -- bytes past the end of the buffer are whatever lies in memory there
      ∃ bytes j, bytes.length = n ∧ bytes.take buffer.length = buffer.take n ∧
        r = (n, fp.flushed (fp.pending ++ bytes) j) ∧ w' = w.flushed fp (fp.pending ++ bytes) j
  | .fflush fp, r, w' =>
      r = fp.flushed fp.pending fp.pending.length ∧ w' = w.flushed fp fp.pending fp.pending.length
  | .fclose fp, _, w' => w' = w.flushed fp fp.pending fp.pending.length
  | .fseek fp offset, r, w' =>
      (offset.toNat < 2 ^ 63 ∧ r = some { fp with pos := offset.toNat } ∧ w' = w) ∨
      (2 ^ 63 ≤ offset.toNat ∧ r = none ∧ w' = w)
  | .rename path path', r, w' =>
      (∃ fs', w.fs.rename (w.loc path) (w.loc path') = some fs' ∧ r = true ∧
        w' = { w with fs := fs' }) ∨
      (w.fs.rename (w.loc path) (w.loc path') = none ∧ r = false ∧ w' = w)
  | .unlink path, r, w' =>
      (∃ fs', w.fs.unlink (w.loc path) = some fs' ∧ r = true ∧ w' = { w with fs := fs' }) ∨
      (w.fs.unlink (w.loc path) = none ∧ r = false ∧ w' = w)
  | .rmdir path, r, w' =>
      (∃ fs', w.fs.rmdir (w.loc path) = some fs' ∧ r = true ∧ w' = { w with fs := fs' }) ∨
      (w.fs.rmdir (w.loc path) = none ∧ r = false ∧ w' = w)
  | .opendir path, r, w' =>
      (w.fs.node (w.target path) = some .dir ∧
        (∃ names, r = some names ∧ names.Perm (w.fs.entries (w.target path))) ∧ w' = w) ∨
      (w.fs.node (w.target path) ≠ some .dir ∧ r = none ∧ w' = w)
  | .zipOpen path, r, w' =>
      (∃ i, w.fs.node (w.target path) = some (.file i) ∧ r = some ⟨i, [], none⟩ ∧
        w' = { w with fs := w.fs.setData i [] }) ∨
      (∃ i fs', w.fs.create (w.target path) = some (i, fs') ∧ r = some ⟨i, [], none⟩ ∧
        w' = { w with fs := fs' }) ∨
      (r = none ∧ (∀ i, w.fs.node (w.target path) ≠ some (.file i)) ∧
        w.fs.create (w.target path) = none ∧ w' = w)
  | .zipEntryOpen zip name, r, w' =>
      ∃ written, r = some { zip with current := some (name, []) } ∧
        w' = { w with fs := w.fs.setData zip.ino written }
  | .zipEntryFwrite zip path, r, w' =>
      (∃ i name content written, w.fs.node (w.target path) = some (.file i) ∧
        zip.current = some (name, content) ∧
        r = some { zip with current := some (name, content ++ w.fs.data i) } ∧
        w' = { w with fs := w.fs.setData zip.ino written }) ∨
      (r = none ∧ w' = w ∧
        (zip.current = none ∨ ∀ i, w.fs.node (w.target path) ≠ some (.file i)))
  | .zipEntryClose zip, r, w' =>
      (∃ entry written, zip.current = some entry ∧
        r = some { zip with entries := zip.entries ++ [entry], current := none } ∧
        w' = { w with fs := w.fs.setData zip.ino written }) ∨
      (zip.current = none ∧ r = none ∧ w' = w)
  | .zipClose none, _, w' => w' = w
  | .zipClose (some zip), _, w' =>
      ∃ written, (zip.current = none → written = lib.zip.archive zip.entries) ∧
        w' = { w with fs := w.fs.setData zip.ino written }
  | .zipCloseWild, _, w' => w' = w
  | .zipExtract path dir, r, w' =>
      (∃ bytes es fs', w.fs.fileAt (w.target path) = some bytes ∧ lib.zip.entries bytes = some es ∧
        w.fs.extract (placements (w.target dir) es) = some fs' ∧ r = true ∧
        w' = { w with fs := fs' }) ∨
      -- an extraction can stop after any part of its work
      (∃ bytes es fs', w.fs.fileAt (w.target path) = some bytes ∧ lib.zip.entries bytes = some es ∧
        w.fs.Unpacks fs' (placements (w.target dir) es) ∧ r = false ∧ w' = { w with fs := fs' }) ∨
      ((w.fs.fileAt (w.target path)).bind lib.zip.entries = none ∧ r = false ∧ w' = w)
  | .md5Final ctx, r, w' => r = lib.md5.final ctx ∧ w' = w
  | .setRcvTimeout _, r, w' => r = true ∧ w' = w
  | .scanf, _, w' => w' = w
  | .crash, _, _ => False
  | .protocolNotFollowed, _, w' => w' = w
  | .remaining _, _, w' => w' = w

/-- A call that fails, having done part of its work where it can. -/
def Faults (lib : Lib) (w : World) : (e : Sys lib.md5.Ctx) → e.Resp → World → Prop
  | .getcwd, r, w' => r = none ∧ w' = w
  | .chdir _, r, w' => r = false ∧ w' = w
  | .lstat _, r, w' => r = none ∧ w' = w
  | .stat _, r, w' => r = none ∧ w' = w
  | .access _ _, r, w' => r = false ∧ w' = w
  | .statvfs _, r, w' => r = none ∧ w' = w
  | .fopen _ _, r, w' => r = none ∧ w' = w
  | .fread fp n, r, w' =>
      ∃ bytes, bytes.length < n ∧ bytes <+: (w.fs.data fp.ino).drop fp.pos ∧
        r = (bytes, { fp with pos := fp.pos + bytes.length, err := true }) ∧ w' = w
  | .fgetc fp, r, w' => r = (none, { fp with err := true }) ∧ w' = w
  | .fwrite fp buffer n, r, w' =>
      ∃ bytes j m, bytes.length = n ∧ bytes.take buffer.length = buffer.take n ∧ m < n ∧
        r = (m, { fp.flushed (fp.pending ++ bytes) j with err := true }) ∧
        w' = w.flushed fp (fp.pending ++ bytes) j
  | .fflush fp, r, w' =>
      ∃ j, r = { fp.flushed fp.pending j with err := true } ∧ w' = w.flushed fp fp.pending j
  | .fclose fp, _, w' => ∃ j, w' = w.flushed fp fp.pending j
  | .fseek _ _, r, w' => r = none ∧ w' = w
  | .rename _ _, r, w' => r = false ∧ w' = w
  | .unlink _, r, w' => r = false ∧ w' = w
  | .rmdir _, r, w' => r = false ∧ w' = w
  | .opendir _, r, w' => r = none ∧ w' = w
  | .zipOpen _, r, w' => r = none ∧ w' = w
  | .zipEntryOpen zip _, r, w' =>
      r = none ∧ ∃ written, w' = { w with fs := w.fs.setData zip.ino written }
  | .zipEntryFwrite zip _, r, w' =>
      r = none ∧ ∃ written, w' = { w with fs := w.fs.setData zip.ino written }
  | .zipEntryClose zip, r, w' =>
      r = none ∧ ∃ written, w' = { w with fs := w.fs.setData zip.ino written }
  | .zipClose (some zip), _, w' => ∃ written, w' = { w with fs := w.fs.setData zip.ino written }
  | .zipExtract _ _, r, w' => r = false ∧ w' = w
  | .setRcvTimeout _, r, w' => r = false ∧ w' = w
  | _, _, _ => False

/-- The operating system, with or without failing calls. -/
def sysSem (lib : Lib) (faulty : Prop) : Sem (Sys lib.md5.Ctx) Sys.Resp World :=
  fun w e r w' => Does lib w e r w' ∨ (faulty ∧ Faults lib w e r w')

/-! ### What `lstat` and `stat` find -/

theorem statOf_absent {fs : Store Name UInt8} {l : Loc} (absent : fs.node l = none)
    {r : Option Stat} : StatOf fs l r ↔ r = none := by
  cases r with
  | none => simp [StatOf, absent]
  | some st => simp [StatOf, absent]

theorem statOf_file {fs : Store Name UInt8} {l : Loc} {i : Nat} (file : fs.node l = some (.file i))
    {r : Option Stat} : StatOf fs l r ↔ r = some ⟨.reg, (fs.data i).length⟩ := by
  cases r with
  | none => simp [StatOf, file]
  | some st => simp [StatOf, file]

/-- Only a special node is found to be one. -/
theorem statOf_special {fs : Store Name UInt8} {l : Loc} {st : Stat}
    (found : StatOf fs l (some st)) (special : st.st_mode = .other) :
    fs.node l = some .other := by
  simp only [StatOf] at found
  cases node : fs.node l with
  | none => simp [node] at found
  | some x => cases x <;> simp_all

end Filerail
