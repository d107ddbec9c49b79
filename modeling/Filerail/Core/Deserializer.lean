/-
Module: Filerail.Core.Deserializer
Layer: Core
Purpose: The six functions of `deserializer.h`. They look at the decoded value through an untagged C
  union: `via.u64` is read of any value, and an element or the bytes of a string are fetched without
  asking whether they are there. A read that finds no such element is `strays`. The library that
  decodes is a parameter, and so is what the union holds in its first eight bytes when the value is
  no integer.
Imports: Filerail.Core.Protocol, Filerail.Logic.Messagepack
Main exports: Outcome, Union, deserialize, deserializeResponseHeader, …, deserializeDataPacket
-/
import Filerail.Core.Protocol
import Filerail.Logic.Messagepack

namespace Filerail

open Messagepack

/-- What a deserializer does: return `true` with a value, return `false`, or read an element that the
    decoded value does not have. -/
inductive Outcome (T : Type) where
  | accepts (value : T)
  | rejects
  | strays
deriving DecidableEq, Repr

/-- `msgpack_unpack_next`: the value at the front of the bytes and the bytes behind it. -/
abbrev Unpack := List UInt8 → Option (Obj × List UInt8)

/-- The first eight bytes of the union of a value that is no integer. -/
abbrev Union := Obj → UInt64

/-- `via.u64` -/
def viaU64 (union : Union) : Obj → UInt64
  | .positiveInteger n => n
  | .negativeInteger bits => bits
  | o => union o

/-- `via.array.ptr[i]`, if there is such an element. -/
def viaArray : Obj → Nat → Option Obj
  | .array items, i => items[i]?
  | _, _ => none

/-- The first `n` bytes at `via.str.ptr`, if there are so many. -/
def viaStr (n : Nat) : Obj → Option (List.Vector UInt8 n)
  | .str body | .bin body | .ext _ body =>
      if n ≤ body.length then some (pad n body) else none
  | _ => none

/-- The elements a loop reads one after the other. -/
def readEach {α : Type} : (n : Nat) → (Nat → Option α) → Option (List.Vector α n)
  | 0, _ => some .nil
  | n + 1, read =>
      (read 0).bind (fun first =>
        (readEach n (fun i => read (i + 1))).map (fun rest => first ::ᵥ rest))

/-- Decode, and read what the message consists of; `none` is a read that strays. -/
def deserialize {T : Type} (unpack : Unpack) (read : Obj → Option T) (buf : List UInt8) : Outcome T :=
  match unpack buf with
  | none => .rejects
  | some (root, _) =>
      match read root with
      | none => .strays
      | some value => .accepts value

section Reads

variable (union : Union)

/-- A response or a command: one number, cut to a byte. -/
def readCode (root : Obj) : Option UInt8 :=
  some (viaU64 union root).toUInt8

def readResourceHeader (root : Obj) : Option ResourceHeader := do
  let resource_size ← viaArray root 0
  let resource_name ← (viaArray root 1).bind (viaStr MAX_RESOURCE_LENGTH)
  let resource_dir ← (viaArray root 2).bind (viaStr MAX_PATH_LENGTH)
  return ⟨viaU64 union resource_size, resource_name, resource_dir⟩

def readResourceHash (root : Obj) : Option Hash :=
  readEach MD5_HASH_LENGTH (fun i => (viaArray root i).map (fun o => (viaU64 union o).toUInt8))

def readFileOffset (root : Obj) : Option UInt64 :=
  some (viaU64 union root)

def readDataPacket (root : Obj) : Option DataPacket := do
  let data_payload ← readEach BUFFER_SIZE (fun i =>
    ((viaArray root 0).bind (fun payload => viaArray payload i)).map
      (fun o => (viaU64 union o).toUInt8))
  let data_size ← viaArray root 1
  return ⟨data_payload, viaU64 union data_size⟩

end Reads

section Functions

variable (unpack : Unpack) (union : Union) (buf : List UInt8)

/-- `filerail_deserialize_response_header` -/
def deserializeResponseHeader : Outcome UInt8 :=
  deserialize unpack (readCode union) buf

/-- `filerail_deserialize_command_header` -/
def deserializeCommandHeader : Outcome UInt8 :=
  deserialize unpack (readCode union) buf

/-- `filerail_deserialize_resource_header` -/
def deserializeResourceHeader : Outcome ResourceHeader :=
  deserialize unpack (readResourceHeader union) buf

/-- `filerail_deserialize_resource_hash` -/
def deserializeResourceHash : Outcome Hash :=
  deserialize unpack (readResourceHash union) buf

/-- `filerail_deserialize_file_offset` -/
def deserializeFileOffset : Outcome UInt64 :=
  deserialize unpack (readFileOffset union) buf

/-- `filerail_deserialize_data_packet` -/
def deserializeDataPacket : Outcome DataPacket :=
  deserialize unpack (readDataPacket union) buf

end Functions

end Filerail
