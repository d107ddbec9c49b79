/-
Module: Filerail.Core.Crypto
Layer: Core
Purpose: The functions of `crypto.h` that a transfer uses: the hash of a file, its hexadecimal name,
  and the encryption of a transfer buffer.
Imports: Filerail.Core.Calls
Main exports: AESKeys, decToHexChar, hashToStr, md5, encrypt, decrypt, decrypt_encrypt
-/
import Filerail.Core.Calls

namespace Filerail

open ProgramLogic

variable {lib : Lib}

/-- `filerail_AES_keys` -/
structure AESKeys where
  iv : AesBlock
  key : AesBlock
deriving DecidableEq

/-- `filerail_dec_to_hex_char` -/
def decToHexChar (c : UInt8) : UInt8 :=
  match c with
  | 0 => 48
  | 1 => 49
  | 2 => 50
  | 3 => 51
  | 4 => 52
  | 5 => 53
  | 6 => 54
  | 7 => 55
  | 8 => 56
  | 9 => 57
  | 10 => 97
  | 11 => 98
  | 12 => 99
  | 13 => 100
  | 14 => 101
  | 15 => 102
  | _ => 48

/-- `filerail_hash_to_str`: the digits it writes to `hex_str`. It writes no terminator. -/
def hashToStr (hash : Hash) : CStr :=
  hash.toList.flatMap (fun b : UInt8 => [decToHexChar ((0xf0 &&& b) >>> 4), decToHexChar (0x0f &&& b)])

/-- One round of the loop of `filerail_md5`. -/
def md5Round (st : lib.md5.Ctx × Stream × Nat) :
    L lib ((lib.md5.Ctx × Stream × Nat) ⊕ (Stream × Option lib.md5.Ctx)) := do
  let (mdContext, fp, size) := st
  if size = 0 then return .inr (fp, some mdContext)
  else
    let (buffer, fp) ← fread fp (min BUFFER_SIZE size)
    if buffer.length ≠ min BUFFER_SIZE size ∧ fp.err = true then return .inr (fp, none)
    else return .inl (lib.md5.update mdContext buffer, fp, size - buffer.length)

/-- `filerail_md5` once the file is open. -/
def md5Opened (zip_filename : CStr) (fp : Stream) : L lib (Option Hash) := do
  match ← stat zip_filename with
  | none => return none
  | some stat_path =>
      let (fp, mdContext) ← Prog.iterate md5Round (lib.md5.init, fp, stat_path.st_size)
      match mdContext with
      | none =>
          fclose fp
          return none
      | some mdContext =>
          let hash ← md5Final mdContext
          fclose fp
          return some hash

/-- `filerail_md5`: the hash of a file, or `none` for `-1`. -/
def md5 (zip_filename : CStr) : L lib (Option Hash) := do
  match ← fopen zip_filename .rb with
  | none => return none
  | some fp => md5Opened zip_filename fp

/-- `filerail_encrypt` on one buffer. -/
def encrypt (lib : Lib) (input : Buffer) (K : AESKeys) : Option Buffer :=
  (lib.aes.setEncryptKey K.key).map (fun key => lib.aes.cbcEncrypt key K.iv input)

/-- `filerail_decrypt` on one buffer. -/
def decrypt (lib : Lib) (input : Buffer) (K : AESKeys) : Option Buffer :=
  (lib.aes.setDecryptKey K.key).map (fun key => lib.aes.cbcDecrypt key K.iv input)

theorem encrypt_isSome (input : Buffer) (K : AESKeys) : ∃ out, encrypt lib input K = some out := by
  obtain ⟨key, h⟩ := Option.isSome_iff_exists.mp (lib.aes.setEncryptKey_isSome K.key)
  exact ⟨_, by rw [encrypt, h, Option.map_some]⟩

theorem decrypt_isSome (input : Buffer) (K : AESKeys) : ∃ out, decrypt lib input K = some out := by
  obtain ⟨key, h⟩ := Option.isSome_iff_exists.mp (lib.aes.setDecryptKey_isSome K.key)
  exact ⟨_, by rw [decrypt, h, Option.map_some]⟩

/-- The receiver gets back the buffer the sender encrypted. -/
theorem decrypt_encrypt {input out : Buffer} {K : AESKeys} (h : encrypt lib input K = some out) :
    decrypt lib out K = some input := by
  obtain ⟨ek, hek, rfl⟩ := Option.map_eq_some_iff.mp h
  obtain ⟨dk, hdk⟩ := Option.isSome_iff_exists.mp (lib.aes.setDecryptKey_isSome K.key)
  rw [decrypt, hdk, Option.map_some, lib.aes.decrypt_encrypt K.key K.iv ek dk input hek hdk]

/-! ### The name of a checkpoint -/

/-- `'0'` to `'9'` and `'a'` to `'f'` -/
def hexDigits : List UInt8 :=
  [48, 49, 50, 51, 52, 53, 54, 55, 56, 57, 97, 98, 99, 100, 101, 102]

theorem decToHexChar_mem (c : UInt8) : decToHexChar c ∈ hexDigits := by
  unfold decToHexChar
  split <;> decide

@[simp] theorem length_hashToStr (hash : Hash) : (hashToStr hash).length = 2 * MD5_HASH_LENGTH := by
  have two : ∀ bytes : List UInt8, (bytes.flatMap (fun b : UInt8 =>
      [decToHexChar ((0xf0 &&& b) >>> 4), decToHexChar (0x0f &&& b)])).length
        = 2 * bytes.length := by
    intro bytes
    induction bytes with
    | nil => rfl
    | cons b bytes ih =>
        rw [List.flatMap_cons, List.length_append, ih]
        simp only [List.length_cons, List.length_nil]
        omega
  rw [hashToStr, two, hash.toList_length]

theorem hashToStr_digit {hash : Hash} {c : UInt8} (member : c ∈ hashToStr hash) :
    c ∈ hexDigits := by
  obtain ⟨b, _, h⟩ := List.mem_flatMap.mp member
  simp only [List.mem_cons, List.not_mem_nil, or_false] at h
  rcases h with rfl | rfl
  · exact decToHexChar_mem _
  · exact decToHexChar_mem _

theorem not_mem_hashToStr {c : UInt8} (other : c ∉ hexDigits) (hash : Hash) : c ∉ hashToStr hash :=
  fun member => other (hashToStr_digit member)

/-- The value of a digit. -/
def hexValue (c : UInt8) : UInt8 :=
  if c ≤ 57 then c - 48 else c - 87

/-- What holds of the 256 bytes, one by one. -/
theorem byte_forall {P : UInt8 → Prop} (every : ∀ n : Fin 256, P (.ofNat n.1)) (b : UInt8) : P b := by
  have here := every ⟨b.toNat, b.toNat_lt⟩
  rwa [show UInt8.ofNat (⟨b.toNat, b.toNat_lt⟩ : Fin 256).1 = b from UInt8.ofNat_toNat] at here

/-- Both digits of a byte give it back. -/
theorem hexValue_digits (b : UInt8) :
    hexValue (decToHexChar ((0xf0 &&& b) >>> 4)) * 16 + hexValue (decToHexChar (0x0f &&& b)) = b := by
  revert b
  apply byte_forall
  decide +kernel

/-- Hashes with the same name are the same. -/
theorem hashToStr_injective : Function.Injective hashToStr := by
  have bytes : ∀ xs ys : List UInt8,
      xs.flatMap (fun b : UInt8 => [decToHexChar ((0xf0 &&& b) >>> 4), decToHexChar (0x0f &&& b)]) =
        ys.flatMap (fun b : UInt8 => [decToHexChar ((0xf0 &&& b) >>> 4), decToHexChar (0x0f &&& b)]) →
      xs = ys := by
    intro xs
    induction xs with
    | nil =>
        intro ys same
        cases ys with
        | nil => rfl
        | cons y ys => cases same
    | cons x xs ih =>
        intro ys same
        cases ys with
        | nil => cases same
        | cons y ys =>
            simp only [List.flatMap_cons, List.cons_append, List.nil_append, List.cons.injEq] at same
            obtain ⟨high, low, rest⟩ := same
            rw [ih ys rest, ← hexValue_digits x, high, low, hexValue_digits]
  intro h h' same
  exact Subtype.ext (bytes h.toList h'.toList same)

end Filerail
