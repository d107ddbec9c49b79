/-
Module: Filerail.Core.Keys
Layer: Core
Purpose: `filerail_read_AES_keys` of `crypto.h`: the loop that reads the key file two digits at a time
  and stores each byte into the vector or the key. A store outside these arrays ends the process, as
  does a read from a file that could not be opened: the code compares the stream with zero by `<`.
Imports: Filerail.Core.Crypto
Main exports: KEY_FILE_SIZE, charToHex, AESKeys.store, readAESKeys
-/
import Filerail.Core.Crypto

namespace Filerail

open ProgramLogic

variable {lib : Lib}

/-- Size of a key file. -/
def KEY_FILE_SIZE : Nat := 96

/-- `filerail_char_to_hex` -/
def charToHex (c : UInt8) : UInt8 :=
  match c with
  | 65 | 97 => 10
  | 66 | 98 => 11
  | 67 | 99 => 12
  | 68 | 100 => 13
  | 69 | 101 => 14
  | 70 | 102 => 15
  | 48 => 0
  | 49 => 1
  | 50 => 2
  | 51 => 3
  | 52 => 4
  | 53 => 5
  | 54 => 6
  | 55 => 7
  | 56 => 8
  | 57 => 9
  | _ => 0

/-- The arrays of `K` set to zero. -/
def AESKeys.zero : AESKeys where
  iv := List.Vector.replicate AES_KEY_SIZE 0
  key := List.Vector.replicate AES_KEY_SIZE 0

/-- `ptr[idx] = byte`, `ptr` being `K->key` or `K->iv`; `none` outside the array. -/
def AESKeys.store (K : AESKeys) (second : Bool) (idx : Nat) (byte : UInt8) : Option AESKeys :=
  if inside : idx < AES_KEY_SIZE then
    if second then some { K with key := K.key.set ⟨idx, inside⟩ byte }
    else some { K with iv := K.iv.set ⟨idx, inside⟩ byte }
  else none

/-- What the loop of `filerail_read_AES_keys` works on: the keys, whether `ptr` is `K->key`, `idx`,
    and the stream. -/
abbrev KeyState := AESKeys × Bool × Nat × Stream

/-- One round of the loop. -/
def readKeyRound (st : KeyState) : L lib (KeyState ⊕ (AESKeys × Stream × Bool)) := do
  let (K, second, idx, fp) := st
  let (pair, fp) ← fread fp 2
  match pair with
  | [high, low] =>
      match K.store second idx ((charToHex high <<< 4) ||| charToHex low) with
      | none => crash
      | some K =>
          -- skip space or newline
          let (_, fp) ← fgetc fp
          if idx + 1 = AES_KEY_SIZE then return .inl (K, true, 0, fp)
          else return .inl (K, second, idx + 1, fp)
  | _ => return .inr (K, fp, !fp.err)

/-- `filerail_read_AES_keys` -/
def readAESKeys (key_path : CStr) : L lib (Int × AESKeys) := do
  match ← stat key_path with
  | none => return (-1, .zero)
  | some stat_path =>
      if stat_path.st_size ≠ KEY_FILE_SIZE then return (-1, .zero)
      else
        match ← fopen key_path .rb with
        | none => crash
        | some fp =>
            let (K, fp, ok) ← Prog.iterate readKeyRound (AESKeys.zero, false, 0, fp)
            fclose fp
            return (if ok then 0 else -1, K)

end Filerail
