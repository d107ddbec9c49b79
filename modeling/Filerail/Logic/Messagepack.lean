/-
Module: Filerail.Logic.Messagepack
Layer: Logic (general library)
Purpose: The msgpack format: its values, and a decoder that reads one value from the front of a byte
  string. Numbers are big-endian. An integer in a signed format counts as positive if it is not
  negative, as the C library has it. The decoder is bounded by fuel, one unit for each value and each
  element of a container; `unpack` gives it more than any byte string can use. The packing functions
  write unsigned integers in the shortest format, and the heads of strings and arrays; `Packs` says
  what the decoder makes of bytes that are followed by others, and has one rule for each function.
Imports: Mathlib.Algebra.Group.Nat.Defs, Mathlib.Data.List.Basic
Main exports: Obj, ofBe, decode, unpack, be, packUint8, packUint64, packArray, packStr, Packs,
  packs_uint8, packs_uint64, packs_str, packs_array, Packs.unpack
-/
import Mathlib.Algebra.Group.Nat.Defs
import Mathlib.Data.List.Basic

namespace Messagepack

/-- A msgpack value. A negative integer and a floating-point number are given by their bits. -/
inductive Obj where
  | nil
  | boolean (b : Bool)
  | positiveInteger (n : UInt64)
  | negativeInteger (bits : UInt64)
  | float (bits : UInt64)
  | str (body : List UInt8)
  | bin (body : List UInt8)
  | ext (type : UInt8) (body : List UInt8)
  | array (items : List Obj)
  | map (entries : List (Obj × Obj))

/-- The number big-endian bytes stand for. -/
def ofBe (bytes : List UInt8) : Nat :=
  bytes.foldl (fun n b => 256 * n + b.toNat) 0

/-- The first `n` bytes, if there are so many, and the rest. -/
def split (n : Nat) (bytes : List UInt8) : Option (List UInt8 × List UInt8) :=
  if n ≤ bytes.length then some (bytes.take n, bytes.drop n) else none

/-- A number of `n` bytes. -/
def number (n : Nat) (bytes : List UInt8) : Option (Nat × List UInt8) :=
  (split n bytes).map (fun out => (ofBe out.1, out.2))

/-- A signed number of `n` bytes, as the 64 bits of its two's complement and its sign. -/
def signed (n : Nat) (bytes : List UInt8) : Option (Obj × List UInt8) :=
  (number n bytes).map (fun out =>
    if out.1 < 2 ^ (8 * n - 1) then (.positiveInteger (.ofNat out.1), out.2)
    else (.negativeInteger (.ofNat (out.1 + (2 ^ 64 - 2 ^ (8 * n)))), out.2))

/-- A body whose length is given in `n` bytes. -/
def body (n : Nat) (bytes : List UInt8) : Option (List UInt8 × List UInt8) :=
  (number n bytes).bind (fun size => split size.1 size.2)

/-- The type of an extension, and its body of `n` bytes. -/
def extension (n : Nat) : List UInt8 → Option (Obj × List UInt8)
  | [] => none
  | type :: bytes => (split n bytes).map (fun out => (.ext type out.1, out.2))

/-- Values one after the other. -/
def pairs : List Obj → List (Obj × Obj)
  | key :: value :: rest => (key, value) :: pairs rest
  | _ => []

mutual

/-- Read one value. -/
def decode : Nat → List UInt8 → Option (Obj × List UInt8)
  | 0, _ => none
  | _ + 1, [] => none
  | fuel + 1, format :: bytes =>
      if format < 0x80 then some (.positiveInteger format.toUInt64, bytes)
      else if format < 0x90 then
        (decodeMany fuel (2 * (format - 0x80).toNat) bytes).map
          (fun out => (.map (pairs out.1), out.2))
      else if format < 0xa0 then
        (decodeMany fuel (format - 0x90).toNat bytes).map (fun out => (.array out.1, out.2))
      else if format < 0xc0 then
        (split (format - 0xa0).toNat bytes).map (fun out => (.str out.1, out.2))
      else if 0xe0 ≤ format then
        some (.negativeInteger (.ofNat (format.toNat + (2 ^ 64 - 2 ^ 8))), bytes)
      else
        match format with
        | 0xc0 => some (.nil, bytes)
        | 0xc2 => some (.boolean false, bytes)
        | 0xc3 => some (.boolean true, bytes)
        | 0xc4 => (body 1 bytes).map (fun out => (.bin out.1, out.2))
        | 0xc5 => (body 2 bytes).map (fun out => (.bin out.1, out.2))
        | 0xc6 => (body 4 bytes).map (fun out => (.bin out.1, out.2))
        | 0xc7 => (number 1 bytes).bind (fun size => extension size.1 size.2)
        | 0xc8 => (number 2 bytes).bind (fun size => extension size.1 size.2)
        | 0xc9 => (number 4 bytes).bind (fun size => extension size.1 size.2)
        | 0xca => (number 4 bytes).map (fun out => (.float (.ofNat out.1), out.2))
        | 0xcb => (number 8 bytes).map (fun out => (.float (.ofNat out.1), out.2))
        | 0xcc => (number 1 bytes).map (fun out => (.positiveInteger (.ofNat out.1), out.2))
        | 0xcd => (number 2 bytes).map (fun out => (.positiveInteger (.ofNat out.1), out.2))
        | 0xce => (number 4 bytes).map (fun out => (.positiveInteger (.ofNat out.1), out.2))
        | 0xcf => (number 8 bytes).map (fun out => (.positiveInteger (.ofNat out.1), out.2))
        | 0xd0 => signed 1 bytes
        | 0xd1 => signed 2 bytes
        | 0xd2 => signed 4 bytes
        | 0xd3 => signed 8 bytes
        | 0xd4 => extension 1 bytes
        | 0xd5 => extension 2 bytes
        | 0xd6 => extension 4 bytes
        | 0xd7 => extension 8 bytes
        | 0xd8 => extension 16 bytes
        | 0xd9 => (body 1 bytes).map (fun out => (.str out.1, out.2))
        | 0xda => (body 2 bytes).map (fun out => (.str out.1, out.2))
        | 0xdb => (body 4 bytes).map (fun out => (.str out.1, out.2))
        | 0xdc => (number 2 bytes).bind (fun size =>
            (decodeMany fuel size.1 size.2).map (fun out => (.array out.1, out.2)))
        | 0xdd => (number 4 bytes).bind (fun size =>
            (decodeMany fuel size.1 size.2).map (fun out => (.array out.1, out.2)))
        | 0xde => (number 2 bytes).bind (fun size =>
            (decodeMany fuel (2 * size.1) size.2).map (fun out => (.map (pairs out.1), out.2)))
        | 0xdf => (number 4 bytes).bind (fun size =>
            (decodeMany fuel (2 * size.1) size.2).map (fun out => (.map (pairs out.1), out.2)))
        | _ => none

/-- Read `n` values. -/
def decodeMany : Nat → Nat → List UInt8 → Option (List Obj × List UInt8)
  | _, 0, bytes => some ([], bytes)
  | 0, _ + 1, _ => none
  | fuel + 1, n + 1, bytes =>
      (decode fuel bytes).bind (fun first =>
        (decodeMany fuel n first.2).map (fun rest => (first.1 :: rest.1, rest.2)))

end

/-- Read one value. -/
def unpack (bytes : List UInt8) : Option (Obj × List UInt8) :=
  decode (2 * bytes.length + 2) bytes

/-! ### Packing -/

/-- The `n` bytes of a number, the most significant first. -/
def be : Nat → Nat → List UInt8
  | 0, _ => []
  | n + 1, x => .ofNat (x / 256 ^ n) :: be n x

/-- `msgpack_pack_uint8` -/
def packUint8 (d : UInt8) : List UInt8 :=
  if d < 0x80 then [d] else [0xcc, d]

/-- `msgpack_pack_uint64` -/
def packUint64 (d : UInt64) : List UInt8 :=
  if d.toNat < 2 ^ 7 then [.ofNat d.toNat]
  else if d.toNat < 2 ^ 8 then 0xcc :: be 1 d.toNat
  else if d.toNat < 2 ^ 16 then 0xcd :: be 2 d.toNat
  else if d.toNat < 2 ^ 32 then 0xce :: be 4 d.toNat
  else 0xcf :: be 8 d.toNat

/-- `msgpack_pack_array`: the head of an array, whose elements follow. -/
def packArray (n : Nat) : List UInt8 :=
  if n < 16 then [.ofNat (0x90 + n)]
  else if n < 2 ^ 16 then 0xdc :: be 2 n
  else 0xdd :: be 4 n

/-- `msgpack_pack_str`: the head of a string, whose bytes follow. -/
def packStr (l : Nat) : List UInt8 :=
  if l < 32 then [.ofNat (0xa0 + l)]
  else if l < 2 ^ 8 then 0xd9 :: be 1 l
  else if l < 2 ^ 16 then 0xda :: be 2 l
  else 0xdb :: be 4 l

@[simp] theorem length_be (n x : Nat) : (be n x).length = n := by
  induction n with
  | zero => rfl
  | succ n ih => rw [be, List.length_cons, ih]

theorem foldl_be (n x acc : Nat) :
    (be n x).foldl (fun n b => 256 * n + b.toNat) acc = 256 ^ n * acc + x % 256 ^ n := by
  induction n generalizing acc with
  | zero => simp [be, Nat.mod_one]
  | succ n ih =>
      have digit : (UInt8.ofNat (x / 256 ^ n)).toNat = x / 256 ^ n % 256 := UInt8.toNat_ofNat'
      rw [be, List.foldl_cons, ih, digit, Nat.mod_pow_succ, Nat.pow_succ, Nat.mul_add,
        Nat.mul_assoc, Nat.add_assoc, Nat.add_comm (x % 256 ^ n)]

/-- A number is read back from its bytes. -/
theorem number_be {n x : Nat} (fits : x < 256 ^ n) (rest : List UInt8) :
    number n (be n x ++ rest) = some (x, rest) := by
  have long : n ≤ (be n x ++ rest).length := by
    rw [List.length_append, length_be]
    exact Nat.le_add_right _ _
  have front : (be n x ++ rest).take n = be n x := List.take_left' (length_be n x)
  have back : (be n x ++ rest).drop n = rest := List.drop_left' (length_be n x)
  have value : ofBe (be n x) = x := by
    rw [ofBe, foldl_be, Nat.mul_zero, Nat.zero_add, Nat.mod_eq_of_lt fits]
  rw [number, split, if_pos long, front, back, Option.map_some, value]

theorem body_be {n : Nat} {text : List UInt8} (fits : text.length < 256 ^ n) (rest : List UInt8) :
    body n (be n text.length ++ (text ++ rest)) = some (text, rest) := by
  have long : text.length ≤ (text ++ rest).length := by
    rw [List.length_append]
    exact Nat.le_add_right _ _
  rw [body, number_be fits, Option.bind_some, split, if_pos long, List.take_left, List.drop_left]

/-! ### What is packed is read back -/

/-- With this much fuel, or more, the decoder reads the value and stops at the end of the bytes. -/
def Packs (fuel : Nat) (bytes : List UInt8) (o : Obj) : Prop :=
  ∀ more rest, decode (fuel + more) (bytes ++ rest) = some (o, rest)

/-- A format that holds a small number besides its kind. -/
theorem short_lt {a n b : Nat} (fits : a + n < 256) (byte : b < 256) :
    UInt8.ofNat (a + n) < UInt8.ofNat b ↔ a + n < b :=
  UInt8.ofNat_lt_iff_lt fits byte

theorem short_sub {a n : Nat} (fits : a + n < 256) :
    (UInt8.ofNat (a + n) - UInt8.ofNat a).toNat = n := by
  rw [← UInt8.ofNat_sub (Nat.le_add_right a n), Nat.add_sub_cancel_left, UInt8.toNat_ofNat',
    Nat.mod_eq_of_lt (by omega)]

theorem decode_fixint {fuel : Nat} {d : UInt8} (small : d < 0x80) (rest : List UInt8) :
    decode (fuel + 1) (d :: rest) = some (.positiveInteger d.toUInt64, rest) := by
  simp [decode, small]

theorem decode_fixarray {fuel : Nat} {d : UInt8} (not_map : ¬ d < 0x90) (array : d < 0xa0)
    (rest : List UInt8) :
    decode (fuel + 1) (d :: rest) =
      (decodeMany fuel (d - 0x90).toNat rest).map (fun out => (.array out.1, out.2)) := by
  have not_int : ¬ d < 0x80 := fun below => not_map (UInt8.lt_trans below (by decide))
  simp [decode, not_int, not_map, array]

theorem decode_fixstr {fuel : Nat} {d : UInt8} (not_array : ¬ d < 0xa0) (string : d < 0xc0)
    (rest : List UInt8) :
    decode (fuel + 1) (d :: rest) =
      (split (d - 0xa0).toNat rest).map (fun out => (.str out.1, out.2)) := by
  have not_map : ¬ d < 0x90 := fun below => not_array (UInt8.lt_trans below (by decide))
  have not_int : ¬ d < 0x80 := fun below => not_map (UInt8.lt_trans below (by decide))
  simp [decode, not_int, not_map, not_array, string]

theorem packs_uint8 (d : UInt8) : Packs 1 (packUint8 d) (.positiveInteger d.toUInt64) := by
  intro more rest
  rw [Nat.add_comm, packUint8]
  split
  · rename_i small
    exact decode_fixint small rest
  · have read : number 1 (d :: rest) = some (d.toNat, rest) := by
      have read := number_be (n := 1) d.toNat_lt rest
      rwa [show be 1 d.toNat = [d] by simp [be], List.singleton_append] at read
    simp [decode, read]

theorem packs_uint64 (d : UInt64) : Packs 1 (packUint64 d) (.positiveInteger d) := by
  intro more rest
  have same : UInt64.ofNat d.toNat = d := UInt64.ofNat_toNat
  rw [Nat.add_comm, packUint64]
  split
  · rename_i small
    have byte : (UInt8.ofNat d.toNat).toNat = d.toNat := by
      rw [UInt8.toNat_ofNat', Nat.mod_eq_of_lt (by omega)]
    have below : UInt8.ofNat d.toNat < 0x80 := by
      rw [UInt8.lt_iff_toNat_lt, byte]
      exact small
    have wide : (UInt8.ofNat d.toNat).toUInt64 = d := by
      apply UInt64.toNat.inj
      rw [UInt8.toNat_toUInt64, byte]
    rw [List.singleton_append, decode_fixint below, wide]
  · split
    · rename_i fits
      have read := number_be (n := 1) fits rest
      simp [decode, read]
    · split
      · rename_i fits
        have read := number_be (n := 2) fits rest
        simp [decode, read]
      · split
        · rename_i fits
          have read := number_be (n := 4) fits rest
          simp [decode, read]
        · have read := number_be (n := 8) d.toNat_lt rest
          simp [decode, read]

theorem packs_str {text : List UInt8} {l : Nat} (size : text.length = l) (fits : l < 2 ^ 32) :
    Packs 1 (packStr l ++ text) (.str text) := by
  intro more rest
  subst size
  rw [Nat.add_comm, List.append_assoc, packStr]
  split
  · rename_i small
    have long : text.length ≤ (text ++ rest).length := by
      rw [List.length_append]
      exact Nat.le_add_right _ _
    have size : (UInt8.ofNat (0xa0 + text.length) - 0xa0).toNat = text.length :=
      short_sub (by omega)
    have not_array : ¬ UInt8.ofNat (0xa0 + text.length) < 0xa0 :=
      (short_lt (b := 0xa0) (by omega) (by decide)).not.mpr (by omega)
    have string : UInt8.ofNat (0xa0 + text.length) < 0xc0 :=
      (short_lt (b := 0xc0) (by omega) (by decide)).mpr (by omega)
    rw [List.singleton_append, decode_fixstr not_array string, size, split, if_pos long,
      List.take_left, List.drop_left, Option.map_some]
  · split
    · rename_i fits
      have read := body_be (n := 1) fits rest
      simp [decode, read]
    · split
      · rename_i fits
        have read := body_be (n := 2) fits rest
        simp [decode, read]
      · have read := body_be (n := 4) fits rest
        simp [decode, read]

/-- Values one after the other, when each is read with `fuel`. -/
theorem packs_many {fuel : Nat} {parts : List (List UInt8)} {items : List Obj}
    (each : List.Forall₂ (Packs fuel) parts items) (more : Nat) (rest : List UInt8) :
    decodeMany (fuel + items.length + more) items.length (parts.flatten ++ rest) =
      some (items, rest) := by
  induction each with
  | nil => simp [decodeMany]
  | @cons part item parts items here others ih =>
      have one := here (items.length + more) (parts.flatten ++ rest)
      rw [← Nat.add_assoc] at one
      have room : fuel + (items.length + 1) + more = (fuel + items.length + more) + 1 := by omega
      rw [List.length_cons, List.flatten_cons, List.append_assoc, room, decodeMany, one,
        Option.bind_some, ih, Option.map_some]

theorem packs_array {fuel n : Nat} {parts : List (List UInt8)} {items : List Obj}
    (each : List.Forall₂ (Packs fuel) parts items) (count : items.length = n) (fits : n < 2 ^ 32) :
    Packs (fuel + n + 1) (packArray n ++ parts.flatten) (.array items) := by
  intro more rest
  subst count
  have read := packs_many each more rest
  have room : fuel + items.length + 1 + more = (fuel + items.length + more) + 1 := by omega
  rw [room, List.append_assoc, packArray]
  split
  · rename_i small
    have size : (UInt8.ofNat (0x90 + items.length) - 0x90).toNat = items.length :=
      short_sub (by omega)
    have not_map : ¬ UInt8.ofNat (0x90 + items.length) < 0x90 :=
      (short_lt (b := 0x90) (by omega) (by decide)).not.mpr (by omega)
    have array : UInt8.ofNat (0x90 + items.length) < 0xa0 :=
      (short_lt (b := 0xa0) (by omega) (by decide)).mpr (by omega)
    rw [List.singleton_append, decode_fixarray not_map array, size, read, Option.map_some]
  · split
    · rename_i fits
      have size := number_be (n := 2) fits (parts.flatten ++ rest)
      simp [decode, size, read]
    · have size := number_be (n := 4) fits (parts.flatten ++ rest)
      simp [decode, size, read]

/-- More fuel does no harm. -/
theorem Packs.mono {fuel fuel' : Nat} {bytes : List UInt8} {o : Obj} (packs : Packs fuel bytes o)
    (more : fuel ≤ fuel') : Packs fuel' bytes o := by
  intro extra rest
  obtain ⟨gap, rfl⟩ := Nat.exists_eq_add_of_le more
  rw [Nat.add_assoc]
  exact packs (gap + extra) rest

/-- The bytes are read as the value, and as no more. -/
theorem Packs.unpack {fuel : Nat} {bytes : List UInt8} {o : Obj} (packs : Packs fuel bytes o)
    (enough : fuel ≤ 2 * bytes.length + 2) : Messagepack.unpack bytes = some (o, []) := by
  have read := packs.mono enough 0 []
  rwa [List.append_nil, Nat.add_zero] at read

end Messagepack
