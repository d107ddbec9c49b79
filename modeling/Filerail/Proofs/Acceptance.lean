/-
Module: Filerail.Proofs.Acceptance
Layer: Proofs
Purpose: Which messages the deserializers accept. `Schema` has the layouts the serializers write; here
  each of the six messages gets the msgpack values that have its layout. A deserializer looks for no
  more than that the bytes decode, so it is right on a body that does not decode or that is a value of
  its message, and on no other.
Imports: Filerail.Core.Deserializer
Main exports: IsByte, IsResourceHeader, IsHash, IsDataPacket, AcceptsOwn, accepts_own_iff,
  deserializers_accept_own_iff
-/
import Filerail.Core.Deserializer

namespace Filerail

open Messagepack

/-! ### The values of each message -/

/-- A number that fits a byte. -/
def IsByte (o : Obj) : Prop :=
  ∃ n : UInt64, o = .positiveInteger n ∧ n.toNat < 256

/-- A number. -/
def IsNumber (o : Obj) : Prop :=
  ∃ n, o = .positiveInteger n

/-- A size, and two strings that fill their buffers and end inside them. -/
def IsResourceHeader (o : Obj) : Prop :=
  ∃ size name dir, o = .array [size, .str name, .str dir] ∧ IsNumber size ∧
    name.length = MAX_RESOURCE_LENGTH ∧ 0 ∈ name ∧ dir.length = MAX_PATH_LENGTH ∧ 0 ∈ dir

/-- As many bytes as a hash has. -/
def IsHash (o : Obj) : Prop :=
  ∃ items, o = .array items ∧ items.length = MD5_HASH_LENGTH ∧ ∀ item ∈ items, IsByte item

/-- As many bytes as a payload has, and a number. -/
def IsDataPacket (o : Obj) : Prop :=
  ∃ items size, o = .array [.array items, size] ∧ items.length = BUFFER_SIZE ∧
    (∀ item ∈ items, IsByte item) ∧ IsNumber size

/-- The bytes are one value, and of this kind. -/
def Encodes (unpack : Unpack) (kind : Obj → Prop) (buf : List UInt8) : Prop :=
  ∃ root, unpack buf = some (root, []) ∧ kind root

/-- The function returns `true` on messages of its own only, and `false` on all else, and reads no
    element that is not there. -/
def AcceptsOwn {T : Type} (unpack : Unpack) (kind : Obj → Prop) (f : List UInt8 → Outcome T)
    (buf : List UInt8) : Prop :=
  (∃ value, f buf = .accepts value ∧ Encodes unpack kind buf) ∨
    (f buf = .rejects ∧ ¬ Encodes unpack kind buf)

/-! ### A read of a value that is of the right kind -/

theorem readEach_isSome {α : Type} {n : Nat} {read : Nat → Option α}
    (each : ∀ i, i < n → (read i).isSome) : (readEach n read).isSome := by
  induction n generalizing read with
  | zero => rfl
  | succ n ih =>
      obtain ⟨first, here⟩ := Option.isSome_iff_exists.mp (each 0 (Nat.succ_pos n))
      have others : (readEach n (fun i => read (i + 1))).isSome :=
        ih (fun i below => each (i + 1) (Nat.succ_lt_succ below))
      rw [readEach, here, Option.bind_some, Option.isSome_map]
      exact others

section Reads

variable {union : Union} {root : Obj}

theorem viaStr_isSome {n : Nat} {body : List UInt8} (size : body.length = n) :
    (viaStr n (.str body)).isSome := by
  rw [viaStr, if_pos size.ge]
  rfl

theorem readResourceHeader_isSome (kind : IsResourceHeader root) :
    (readResourceHeader union root).isSome := by
  obtain ⟨size, name, dir, rfl, _, name_size, _, dir_size, _⟩ := kind
  obtain ⟨n, name_read⟩ := Option.isSome_iff_exists.mp (viaStr_isSome name_size)
  obtain ⟨d, dir_read⟩ := Option.isSome_iff_exists.mp (viaStr_isSome dir_size)
  simp [readResourceHeader, viaArray, name_read, dir_read]

theorem readResourceHash_isSome (kind : IsHash root) : (readResourceHash union root).isSome := by
  obtain ⟨items, rfl, count, _⟩ := kind
  apply readEach_isSome
  intro i below
  rw [viaArray, List.getElem?_eq_getElem (count.symm ▸ below)]
  rfl

theorem readDataPacket_isSome (kind : IsDataPacket root) : (readDataPacket union root).isSome := by
  obtain ⟨items, size, rfl, count, _, _⟩ := kind
  have payload : (readEach BUFFER_SIZE (fun i =>
      ((viaArray (.array [.array items, size]) 0).bind (fun payload => viaArray payload i)).map
        (fun o => (viaU64 union o).toUInt8))).isSome := by
    apply readEach_isSome
    intro i below
    simp only [viaArray, List.getElem?_cons_zero, Option.bind_some]
    rw [List.getElem?_eq_getElem (count.symm ▸ below)]
    rfl
  obtain ⟨bytes, read⟩ := Option.isSome_iff_exists.mp payload
  rw [readDataPacket, read]
  rfl

end Reads

/-! ### What is accepted -/

section Accepting

variable {unpack : Unpack} {buf : List UInt8}

/-- A deserializer that reads its own messages without straying is right exactly on these, and on what
    does not decode. -/
theorem accepts_own_iff {T : Type} {kind : Obj → Prop} {read : Obj → Option T}
    (reads : ∀ root, kind root → (read root).isSome) :
    AcceptsOwn unpack kind (deserialize unpack read) buf ↔
      unpack buf = none ∨ Encodes unpack kind buf := by
  unfold AcceptsOwn deserialize
  cases decoded : unpack buf with
  | none =>
      have nothing : ¬ Encodes unpack kind buf := by
        rintro ⟨root, here, _⟩
        rw [decoded] at here
        cases here
      exact iff_of_true (Or.inr ⟨rfl, nothing⟩) (Or.inl rfl)
  | some out =>
      obtain ⟨root, rest⟩ := out
      dsimp only
      constructor
      · rintro (⟨_, _, own⟩ | ⟨refused, _⟩)
        · exact Or.inr own
        · cases value : read root with
          | none =>
              rw [value] at refused
              cases refused
          | some v =>
              rw [value] at refused
              cases refused
      · rintro (impossible | own)
        · cases impossible
        · obtain ⟨root', here, is_kind⟩ := own
          rw [decoded] at here
          cases here
          obtain ⟨value, found⟩ := Option.isSome_iff_exists.mp (reads root is_kind)
          rw [found]
          exact Or.inl ⟨value, rfl, root, decoded, is_kind⟩

/-- Each of the six functions accepts its own messages only exactly if the body does not decode or is
    such a message. -/
theorem deserializers_accept_own_iff (unpack : Unpack) (union : Union) (buf : List UInt8) :
    (AcceptsOwn unpack IsByte (deserializeResponseHeader unpack union) buf ↔
        unpack buf = none ∨ Encodes unpack IsByte buf) ∧
      (AcceptsOwn unpack IsByte (deserializeCommandHeader unpack union) buf ↔
        unpack buf = none ∨ Encodes unpack IsByte buf) ∧
      (AcceptsOwn unpack IsResourceHeader (deserializeResourceHeader unpack union) buf ↔
        unpack buf = none ∨ Encodes unpack IsResourceHeader buf) ∧
      (AcceptsOwn unpack IsHash (deserializeResourceHash unpack union) buf ↔
        unpack buf = none ∨ Encodes unpack IsHash buf) ∧
      (AcceptsOwn unpack IsNumber (deserializeFileOffset unpack union) buf ↔
        unpack buf = none ∨ Encodes unpack IsNumber buf) ∧
      (AcceptsOwn unpack IsDataPacket (deserializeDataPacket unpack union) buf ↔
        unpack buf = none ∨ Encodes unpack IsDataPacket buf) :=
  ⟨accepts_own_iff (fun _ _ => rfl), accepts_own_iff (fun _ _ => rfl),
    accepts_own_iff (fun _ => readResourceHeader_isSome),
    accepts_own_iff (fun _ => readResourceHash_isSome), accepts_own_iff (fun _ _ => rfl),
    accepts_own_iff (fun _ => readDataPacket_isSome)⟩

end Accepting

/-- The response `256` is read as OK, a string is read as a command, and the empty array as a hash that
    is not there. -/
theorem deserializers_accept_others :
    ¬ AcceptsOwn Messagepack.unpack IsByte
        (deserializeResponseHeader Messagepack.unpack (fun _ => 0)) [0xcd, 1, 0] ∧
      deserializeResponseHeader Messagepack.unpack (fun _ => 0) [0xcd, 1, 0] =
        .accepts Response.ok.code ∧
      ¬ AcceptsOwn Messagepack.unpack IsByte
        (deserializeCommandHeader Messagepack.unpack (fun _ => 0)) [0xa1, 0x61] ∧
      ¬ AcceptsOwn Messagepack.unpack IsHash
        (deserializeResourceHash Messagepack.unpack (fun _ => 0)) [0x90] ∧
      deserializeResourceHash Messagepack.unpack (fun _ => 0) [0x90] = .strays := by
  have large : Messagepack.unpack [0xcd, 1, 0] = some (.positiveInteger 256, []) := rfl
  have text : Messagepack.unpack [0xa1, 0x61] = some (.str [0x61], []) := rfl
  have empty : Messagepack.unpack [0x90] = some (.array [], []) := rfl
  refine ⟨?_, ?_, ?_, ?_, ?_⟩
  · intro own
    rcases (accepts_own_iff (fun _ _ => rfl)).mp own with impossible | ⟨_, here, n, rfl, small⟩
    · rw [large] at impossible
      cases impossible
    · rw [large] at here
      cases here
      exact absurd small (by decide)
  · rw [deserializeResponseHeader, deserialize, large]
    rfl
  · intro own
    rcases (accepts_own_iff (fun _ _ => rfl)).mp own with impossible | ⟨_, here, n, rfl, _⟩
    · rw [text] at impossible
      cases impossible
    · rw [text] at here
      cases here
  · intro own
    rcases (accepts_own_iff (fun _ => readResourceHash_isSome)).mp own with
      impossible | ⟨_, here, items, rfl, count, _⟩
    · rw [empty] at impossible
      cases impossible
    · rw [empty] at here
      cases here
      cases count
  · rw [deserializeResourceHash, deserialize, empty]
    rfl

end Filerail
