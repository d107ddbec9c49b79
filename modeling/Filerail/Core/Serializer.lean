/-
Module: Filerail.Core.Serializer
Layer: Core
Purpose: The six functions of `serializer.h`, as the bytes they leave in the buffer. A message of more
  than one field is an array; bytes go one by one as numbers, and the two names of a resource header
  go as strings that fill their fields.
Imports: Filerail.Core.Protocol, Filerail.Logic.Messagepack
Main exports: serializeResponseHeader, …, serializeDataPacket
-/
import Filerail.Core.Protocol
import Filerail.Logic.Messagepack

namespace Filerail

open Messagepack

/-- Number of attributes in a resource header. -/
def NUM_ATTRS_FOR_RESOURCE_HEADER : Nat := 3

/-- Number of attributes in a data packet. -/
def NUM_ATTRS_FOR_DATA_PACKET : Nat := 2

/-- The loop that packs bytes one by one. -/
def packBytes (bytes : List UInt8) : List UInt8 :=
  (bytes.map packUint8).flatten

/-- `filerail_serialize_response_header` -/
def serializeResponseHeader (response_type : UInt8) : List UInt8 :=
  packUint8 response_type

/-- `filerail_serialize_command_header` -/
def serializeCommandHeader (command_type : UInt8) : List UInt8 :=
  packUint8 command_type

/-- `filerail_serialize_resource_header` -/
def serializeResourceHeader (h : ResourceHeader) : List UInt8 :=
  packArray NUM_ATTRS_FOR_RESOURCE_HEADER ++ packUint64 h.resource_size ++
    packStr MAX_RESOURCE_LENGTH ++ h.resource_name.toList ++
    packStr MAX_PATH_LENGTH ++ h.resource_dir.toList

/-- `filerail_serialize_file_offset` -/
def serializeFileOffset (offset : UInt64) : List UInt8 :=
  packUint64 offset

/-- `filerail_serialize_resource_hash` -/
def serializeResourceHash (hash : Hash) : List UInt8 :=
  packArray MD5_HASH_LENGTH ++ packBytes hash.toList

/-- `filerail_serialize_data_packet` -/
def serializeDataPacket (p : DataPacket) : List UInt8 :=
  packArray NUM_ATTRS_FOR_DATA_PACKET ++ packArray BUFFER_SIZE ++ packBytes p.data_payload.toList ++
    packUint64 p.data_size

end Filerail
