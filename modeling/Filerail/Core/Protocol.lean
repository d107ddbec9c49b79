/-
Module: Filerail.Core.Protocol
Layer: Core
Purpose: The constants of `constants.h` and the records and codes of `protocol.h`. Fixed-size arrays
  are vectors of bytes. A checkpoint record is also given as the bytes `fwrite` stores for it on a
  64-bit little-endian machine: the offset, the path buffer, and the padding of the C structure.
Imports: Filerail.Core.Path, Mathlib.Data.Vector.Basic
Main exports: Command, Response, Hash, ResourceHeader, DataPacket, Checkpoint, Checkpoint.image,
  Checkpoint.ofImage, ofImage_image, pad
-/
import Filerail.Core.Path
import Mathlib.Data.Vector.Basic

namespace Filerail

/-! ### Constants -/

/-- Length of a path buffer. -/
def MAX_PATH_LENGTH : Nat := 4097

/-- Length of a resource name buffer. -/
def MAX_RESOURCE_LENGTH : Nat := 256

/-- Length of the payload of a data packet. -/
def BUFFER_SIZE : Nat := 1024

/-- Length of an MD5 hash. -/
def MD5_HASH_LENGTH : Nat := 16

/-- Length of an AES-128 key. -/
def AES_KEY_SIZE : Nat := 16

/-- Seconds a receive waits outside a transfer. -/
def TIME_OUT : Nat := 36000

/-- Seconds a receive waits during a transfer. -/
def MAX_IO_TIME_OUT : Nat := 10

/-! ### Codes

Commands and responses are sent as one byte each, in two kinds of header with the same layout. -/

/-- `enum COMMAND` -/
inductive Command where
  | get
  | put
  | ping
  | check
  | abort
  | overwrite
  | resourceSize
  | resume
  | restart
deriving DecidableEq, Repr

/-- The byte a command is sent as. -/
def Command.code : Command → UInt8
  | .get => 0
  | .put => 1
  | .ping => 2
  | .check => 3
  | .abort => 4
  | .overwrite => 5
  | .resourceSize => 6
  | .resume => 7
  | .restart => 8

/-- `enum RESPONSE` -/
inductive Response where
  | ok
  | pong
  | finish
  | notFound
  | noAccess
  | badResource
  | insufficientSpace
  | duplicateResourceName
  | noIntegrity
deriving DecidableEq, Repr

/-- The byte a response is sent as. -/
def Response.code : Response → UInt8
  | .ok => 0
  | .pong => 1
  | .finish => 2
  | .notFound => 3
  | .noAccess => 4
  | .badResource => 5
  | .insufficientSpace => 6
  | .duplicateResourceName => 7
  | .noIntegrity => 8

theorem Command.code_injective : Function.Injective Command.code := by
  intro a b same
  cases a <;> cases b <;> first | rfl | simp [Command.code] at same

theorem Response.code_injective : Function.Injective Response.code := by
  intro a b same
  cases a <;> cases b <;> first | rfl | simp [Response.code] at same

/-! ### Records -/

/-- `filerail_resource_hash` -/
abbrev Hash := List.Vector UInt8 MD5_HASH_LENGTH

/-- `filerail_resource_header` -/
structure ResourceHeader where
  resource_size : UInt64
  resource_name : List.Vector UInt8 MAX_RESOURCE_LENGTH
  resource_dir : List.Vector UInt8 MAX_PATH_LENGTH
deriving DecidableEq

/-- `filerail_data_packet` -/
structure DataPacket where
  data_payload : List.Vector UInt8 BUFFER_SIZE
  data_size : UInt64
deriving DecidableEq

/-- `filerail_checkpoint` -/
structure Checkpoint where
  offset : UInt64
  resource_path : List.Vector UInt8 MAX_PATH_LENGTH
deriving DecidableEq

/-- The first `n` bytes of a buffer that was set to zero before `bytes` was copied to its start. -/
def pad (n : Nat) (bytes : List UInt8) : List.Vector UInt8 n :=
  ⟨(bytes ++ List.replicate n 0).take n, by simp⟩

/-- `strcpy` into a buffer: the string and its terminator replace the first bytes. -/
def strcpy {n : Nat} (buffer : List.Vector UInt8 n) (s : CStr) : List.Vector UInt8 n :=
  ⟨(s ++ 0 :: buffer.toList.drop (s.length + 1) ++ List.replicate n 0).take n, by
    simp
    omega⟩

/-- The resource name as the C string functions read it. An array without a terminator runs on into
    the next field. -/
def ResourceHeader.nameStr (h : ResourceHeader) : CStr :=
  cstr (h.resource_name.toList ++ h.resource_dir.toList)

/-- The directory as the C string functions read it. -/
def ResourceHeader.dirStr (h : ResourceHeader) : CStr :=
  cstr h.resource_dir.toList

theorem take_pad {n k : Nat} {bytes : List UInt8} (fits : bytes.length ≤ n) (h : k ≤ bytes.length) :
    (pad n bytes).toList.take k = bytes.take k := by
  show ((bytes ++ List.replicate n 0).take n).take k = bytes.take k
  rw [List.take_take, Nat.min_eq_left (h.trans fits), List.take_append_of_le_length h]

theorem cstr_append_zero {s : CStr} (clean : (0 : UInt8) ∉ s) (rest : List UInt8) :
    cstr (s ++ 0 :: rest) = s := by
  unfold cstr
  rw [List.takeWhile_append_of_pos]
  · simp
  · intro c member
    simp only [ne_eq, decide_eq_true_eq]
    rintro rfl
    exact clean member

/-- A string that fits its buffer is read back from it. -/
theorem cstr_strcpy {n : Nat} {s : CStr} (clean : (0 : UInt8) ∉ s) (fits : s.length < n)
    (buffer : List.Vector UInt8 n) : cstr (strcpy buffer s).toList = s := by
  have cut : (strcpy buffer s).toList =
      s ++ 0 :: (buffer.toList.drop (s.length + 1) ++ List.replicate n 0).take (n - s.length - 1) := by
    obtain ⟨m, hm⟩ : ∃ m, n - s.length = m + 1 := ⟨n - s.length - 1, by omega⟩
    show (s ++ 0 :: buffer.toList.drop (s.length + 1) ++ List.replicate n 0).take n = _
    rw [List.append_assoc, List.take_append, List.take_of_length_le fits.le, hm, List.cons_append,
      List.take_succ_cons]
    simp
  rw [cut, cstr_append_zero clean]

/-! ### Little-endian numbers -/

/-- The eight bytes of a number in memory. -/
def le64 (x : UInt64) : List UInt8 :=
  let n := x.toNat
  [.ofNat n, .ofNat (n / 256), .ofNat (n / 256 ^ 2), .ofNat (n / 256 ^ 3), .ofNat (n / 256 ^ 4),
    .ofNat (n / 256 ^ 5), .ofNat (n / 256 ^ 6), .ofNat (n / 256 ^ 7)]

/-- The number the bytes in memory stand for. -/
def ofLe64 (bytes : List UInt8) : UInt64 :=
  .ofNat (bytes.foldr (fun b n => b.toNat + 256 * n) 0)

@[simp] theorem length_le64 (x : UInt64) : (le64 x).length = 8 := rfl

theorem ofLe64_le64 (x : UInt64) : ofLe64 (le64 x) = x := by
  have bound := x.toNat_lt
  apply UInt64.toNat.inj
  simp only [ofLe64, le64, List.foldr_cons, List.foldr_nil, UInt8.toNat_ofNat', UInt64.toNat_ofNat']
  omega

/-! ### The checkpoint file -/

/-- Bytes the compiler adds to the end of `filerail_checkpoint`. -/
def CHECKPOINT_PADDING : Nat := 7

/-- `sizeof(filerail_checkpoint)` -/
def sizeofCheckpoint : Nat := 8 + MAX_PATH_LENGTH + CHECKPOINT_PADDING

namespace Checkpoint

/-- The record in memory, its padding being whatever was there. -/
def image (c : Checkpoint) (padding : List.Vector UInt8 CHECKPOINT_PADDING) : List UInt8 :=
  le64 c.offset ++ c.resource_path.toList ++ padding.toList

/-- The record that `sizeofCheckpoint` bytes in memory stand for. -/
def ofImage (bytes : List UInt8) : Checkpoint where
  offset := ofLe64 (bytes.take 8)
  resource_path := pad MAX_PATH_LENGTH ((bytes.drop 8).take MAX_PATH_LENGTH)

/-- The resource path as the C string functions read it. -/
def pathStr (c : Checkpoint) : CStr :=
  cstr c.resource_path.toList

@[simp] theorem length_image (c : Checkpoint) (padding : List.Vector UInt8 CHECKPOINT_PADDING) :
    (c.image padding).length = sizeofCheckpoint := by
  simp [image, sizeofCheckpoint, Nat.add_assoc]

/-- A record is read back as it was written. -/
theorem ofImage_image (c : Checkpoint) (padding : List.Vector UInt8 CHECKPOINT_PADDING) :
    ofImage (c.image padding) = c := by
  obtain ⟨offset, path⟩ := c
  have front : (image ⟨offset, path⟩ padding).take 8 = le64 offset := by
    simp only [image, List.append_assoc]
    exact List.take_left' (length_le64 offset)
  have back : ((image ⟨offset, path⟩ padding).drop 8).take MAX_PATH_LENGTH = path.toList := by
    simp only [image, List.append_assoc]
    rw [List.drop_left' (length_le64 offset)]
    exact List.take_left' path.toList_length
  unfold ofImage
  rw [front, back, ofLe64_le64]
  congr 1
  apply List.Vector.eq
  show (path.toList ++ List.replicate MAX_PATH_LENGTH 0).take MAX_PATH_LENGTH = path.toList
  exact List.take_left' path.toList_length

end Checkpoint

end Filerail
