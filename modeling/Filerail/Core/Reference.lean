/-
Module: Filerail.Core.Reference
Layer: Core
Purpose: Libraries that satisfy the laws of `Lib` and are simple enough to compute with: a hash that
  keeps short inputs apart, a cipher that changes nothing, and an archive format in which each byte
  is marked. With them and the machine whole runs of the program can be computed.
Imports: Filerail.Core.Operations
Main exports: reference, digest_injective_of_short, tree
-/
import Filerail.Core.Operations

namespace Filerail

open FileStore ProgramLogic

/-! ### The hash -/

/-- The length and the first bytes. -/
def digestOf (bytes : List UInt8) : Hash :=
  pad MD5_HASH_LENGTH (.ofNat (min bytes.length 255) :: bytes)

theorem digest_injective_of_short {F X : List UInt8} (short : F.length < MD5_HASH_LENGTH)
    (same : digestOf X = digestOf F) : X = F := by
  have len : MD5_HASH_LENGTH = 15 + 1 := rfl
  have lists : (digestOf X).toList = (digestOf F).toList := congrArg List.Vector.toList same
  have shape : ∀ Y : List UInt8, (digestOf Y).toList =
      .ofNat (min Y.length 255) :: (Y ++ List.replicate MD5_HASH_LENGTH 0).take 15 := fun _ => rfl
  rw [shape, shape, List.cons.injEq] at lists
  have size : X.length = F.length := by
    have code := congrArg UInt8.toNat lists.1
    simp only [UInt8.toNat_ofNat'] at code
    omega
  have cut := congrArg (List.take F.length) lists.2
  rw [List.take_take, List.take_take, Nat.min_eq_left (by omega),
    List.take_append_of_le_length (Nat.le_refl _), ← size,
    List.take_append_of_le_length (Nat.le_refl _), List.take_length, size, List.take_length] at cut
  exact cut

/-- The hash as a library: the context is what has been read. -/
def referenceMd5 : Md5 where
  Ctx := List UInt8
  init := []
  update read chunk := read ++ chunk
  final := digestOf
  digest := digestOf
  final_foldl chunks := by
    have absorbed : ∀ read : List UInt8,
        chunks.foldl (fun read chunk => read ++ chunk) read = read ++ chunks.flatten := by
      induction chunks with
      | nil => simp
      | cons chunk rest ih =>
          intro read
          rw [List.foldl_cons, ih, List.flatten_cons, List.append_assoc]
    rw [absorbed, List.nil_append]

/-- The cipher that changes nothing. -/
def referenceAes : Aes where
  EncKey := Unit
  DecKey := Unit
  setEncryptKey _ := some ()
  setDecryptKey _ := some ()
  cbcEncrypt _ _ buffer := buffer
  cbcDecrypt _ _ buffer := buffer
  setEncryptKey_isSome _ := rfl
  setDecryptKey_isSome _ := rfl
  decrypt_encrypt _ _ _ _ _ _ _ := rfl

/-! ### The archive format -/

/-- Each byte behind a mark, and an end mark. -/
def mark (bytes : List UInt8) : List UInt8 :=
  bytes.flatMap (fun b => [1, b]) ++ [0]

/-- Read marked bytes up to the end mark. -/
def unmark : List UInt8 → Option (List UInt8 × List UInt8)
  | 0 :: rest => some ([], rest)
  | _ :: b :: rest => (unmark rest).map (fun out => (b :: out.1, out.2))
  | _ => none

theorem unmark_mark (bytes rest : List UInt8) : unmark (mark bytes ++ rest) = some (bytes, rest) := by
  induction bytes with
  | nil => rfl
  | cons b bytes ih =>
      have front : mark (b :: bytes) ++ rest = 1 :: b :: (mark bytes ++ rest) := by simp [mark]
      rw [front, unmark, ih]
      · rfl
      · decide

/-- The entries one behind the other, each as its name and its content. -/
def pack (entries : Entries) : List UInt8 :=
  entries.flatMap (fun entry => mark entry.1 ++ mark entry.2)

/-- Read at most `fuel` entries. -/
def unpack : Nat → List UInt8 → Option Entries
  | 0, _ => none
  | _ + 1, [] => some []
  | fuel + 1, bytes =>
      (unmark bytes).bind (fun name =>
        (unmark name.2).bind (fun content =>
          (unpack fuel content.2).map (fun entries => (name.1, content.1) :: entries)))

theorem unpack_pack (entries : Entries) (fuel : Nat) (enough : entries.length < fuel) :
    unpack fuel (pack entries) = some entries := by
  induction entries generalizing fuel with
  | nil =>
      cases fuel with
      | zero => cases enough
      | succ fuel => rfl
  | cons entry rest ih =>
      cases fuel with
      | zero => cases enough
      | succ fuel =>
          have front : pack (entry :: rest) = mark entry.1 ++ (mark entry.2 ++ pack rest) := by
            simp [pack]
          have some_bytes : mark entry.1 ++ (mark entry.2 ++ pack rest) ≠ [] := by simp [mark]
          rw [front, unpack, unmark_mark, Option.bind_some, unmark_mark, Option.bind_some,
            ih fuel (Nat.lt_of_succ_lt_succ enough)]
          · rfl
          · exact some_bytes

theorem length_le_pack (entries : Entries) : entries.length ≤ (pack entries).length := by
  induction entries with
  | nil => exact Nat.le_refl 0
  | cons entry rest ih =>
      have front : pack (entry :: rest) = mark entry.1 ++ (mark entry.2 ++ pack rest) := by
        simp [pack]
      rw [front]
      simp only [mark, List.length_cons, List.length_append, List.length_nil]
      omega

/-- The format as a library. -/
def referenceZip : ZipFormat where
  archive := pack
  entries bytes := unpack (bytes.length + 1) bytes
  entries_archive entries := unpack_pack _ _ (Nat.lt_succ_of_le (length_le_pack entries))

/-- The three libraries. -/
def reference : Lib where
  md5 := referenceMd5
  aes := referenceAes
  zip := referenceZip

/-! ### Small trees -/

/-- A name of one letter; a byte that is no name is taken for `a`. -/
def letter (c : UInt8) : Name :=
  if ok : NameOk [c] then ⟨[c], ok⟩ else ⟨[97], by decide⟩

/-- A root with one node, which is no file. -/
def rootWith (name : Name) (x : Node Name) (special : ∀ i, x ≠ .file i) : Store Name UInt8 :=
  Store.bare.attach [] name x 0 rfl rfl (Nat.le_refl 0) (fun i file => absurd file (special i))

/-- A file system with the directories, each below the root, and then the files. -/
def tree (dirs : List Name) (files : List (Loc × List UInt8)) : Store Name UInt8 :=
  files.foldl (fun fs file => (fs.putFile file.1 file.2).getD fs)
    (dirs.foldl (fun fs name => (fs.mkdir [name]).getD fs) Store.bare)

/-- Such a file system has no symbolic links. -/
theorem tree_links (dirs : List Name) (files : List (Loc × List UInt8)) (l t : Loc) :
    (tree dirs files).node l ≠ some (.link t) := by
  have bare : (Store.bare : Store Name UInt8).node l ≠ some (.link t) := by
    cases l <;> simp [Store.bare]
  have made : ∀ fs : Store Name UInt8, fs.node l ≠ some (.link t) →
      (dirs.foldl (fun fs name => (fs.mkdir [name]).getD fs) fs).node l ≠ some (.link t) := by
    induction dirs with
    | nil => exact fun fs free => free
    | cons name rest ih =>
        intro fs free
        apply ih
        cases new : fs.mkdir [name] with
        | none =>
            simp only [new]
            exact free
        | some fs' =>
            simp only [new]
            intro link
            exact free (((Store.extends_mkdir new (fun _ => False)).link_iff l t).mp link)
  have filled : ∀ fs : Store Name UInt8, fs.node l ≠ some (.link t) →
      (files.foldl (fun fs file => (fs.putFile file.1 file.2).getD fs) fs).node l ≠
        some (.link t) := by
    induction files with
    | nil => exact fun fs free => free
    | cons file rest ih =>
        intro fs free
        apply ih
        cases new : fs.putFile file.1 file.2 with
        | none =>
            simp only [new]
            exact free
        | some fs' =>
            simp only [new]
            intro link
            exact free (((Store.extends_putFile new (fun _ => False)).1.link_iff l t).mp link)
  exact filled _ (made _ bare)

end Filerail
