/-
Module: Filerail.Core.Wire
Layer: Core
Purpose: What lies under the frames of `Calls`: `filerail_send` and `filerail_recv`, which go on until
  all bytes are sent or received, and on top of them the twelve functions that send and receive one
  message each. A frame is its length in four bytes and the serialized message. Memory is never short.
Imports: Filerail.Core.Calls, Filerail.Core.Deserializer, Filerail.Core.Serializer,
  Filerail.Logic.Stream
Main exports: W, Wire.send, Wire.recv, Wire.sendFrame, Wire.recvFrame, Message, Message.send, MessageKind,
  MessageKind.recv, sendAll, recvAll
-/
import Filerail.Core.Calls
import Filerail.Core.Deserializer
import Filerail.Core.Serializer
import Filerail.Logic.Stream

namespace Filerail

open ProgramLogic Messagepack

/-- A function that uses the socket as a stream of bytes. -/
abbrev W (α : Type) := Prog (Flow UInt8) Flow.Answer α

namespace Wire

/-- `send`, which takes some of the bytes, or fails. -/
abbrev put (chunk : List UInt8) : W (Option Nat) :=
  Prog.perform (E := Flow UInt8) (R := Flow.Answer) (.put chunk)

/-- `recv`, which returns some bytes, none if the peer has closed, or fails. -/
abbrev take (n : Nat) : W (Option (List UInt8)) :=
  Prog.perform (E := Flow UInt8) (R := Flow.Answer) (.take n)

/-- One round of the loop of `filerail_send`, with its variables `len` and `cur`. -/
def sendRound (buffer : List UInt8) (st : Nat × Nat) : W ((Nat × Nat) ⊕ Int) := do
  let (len, cur) := st
  if len = 0 then return .inr 0
  else
    match ← put ((buffer.drop cur).take len) with
    | none | some 0 => return .inr (-1)
    | some nbytes => return .inl (len - nbytes, cur + nbytes)

/-- `filerail_send` -/
def send (buffer : List UInt8) (len : Nat) : W Int :=
  Prog.iterate (sendRound buffer) (len, 0)

/-- One round of the loop of `filerail_recv`, with `len` and the front of the buffer that is filled. -/
def recvRound (st : Nat × List UInt8) : W ((Nat × List UInt8) ⊕ Option (List UInt8)) := do
  let (len, buffer) := st
  if len = 0 then return .inr (some buffer)
  else
    match ← take len with
    | none | some [] => return .inr none
    | some bytes => return .inl (len - bytes.length, buffer ++ bytes)

/-- `filerail_recv`: what is in the buffer, or nothing if it fails. -/
def recv (len : Nat) : W (Option (List UInt8)) :=
  Prog.iterate recvRound (len, [])

/-- The size in network byte order, and then the message. -/
def sendFrame (buf : List UInt8) : W Int := do
  let size := UInt32.ofNat buf.length
  if size = 0 then return -1
  else if (← send (be 4 size.toNat) 4) = -1 then return -1
  else if (← send buf size.toNat) = -1 then return -1
  else return 0

/-- The size, and then as many bytes, which are deserialized. -/
def recvFrame {T : Type} (deserialize : List UInt8 → Outcome T) : W (Option (Outcome T)) := do
  match ← recv 4 with
  | none => return none
  | some size =>
      match ← recv (ofBe size) with
      | none => return none
      | some buf => return some (deserialize buf)

/-- `filerail_send_response_header` -/
def sendResponseHeader (type : UInt8) : W Int :=
  sendFrame (serializeResponseHeader type)

/-- `filerail_send_command_header`. That it deserializes what it has serialized changes nothing. -/
def sendCommandHeader (type : UInt8) : W Int :=
  sendFrame (serializeCommandHeader type)

/-- `filerail_send_resource_header` -/
def sendResourceHeader (name dir : CStr) (resource_size : UInt64) : W Int :=
  sendFrame (serializeResourceHeader
    { resource_size := resource_size
      resource_name := pad MAX_RESOURCE_LENGTH name
      resource_dir := pad MAX_PATH_LENGTH dir })

/-- `filerail_send_file_offset` -/
def sendFileOffset (offset : UInt64) : W Int :=
  sendFrame (serializeFileOffset offset)

/-- `filerail_send_resource_hash` -/
def sendResourceHash (hash : Hash) : W Int :=
  sendFrame (serializeResourceHash hash)

/-- `filerail_send_data_packet` -/
def sendDataPacket (out : Buffer) (nbytes : UInt64) : W Int :=
  sendFrame (serializeDataPacket { data_payload := out, data_size := nbytes })

section Receiving

variable (union : Union)

/-- `filerail_recv_response_header` -/
def recvResponseHeader : W (Option (Outcome UInt8)) :=
  recvFrame (deserializeResponseHeader Messagepack.unpack union)

/-- `filerail_recv_command_header` -/
def recvCommandHeader : W (Option (Outcome UInt8)) :=
  recvFrame (deserializeCommandHeader Messagepack.unpack union)

/-- `filerail_recv_resource_header` -/
def recvResourceHeader : W (Option (Outcome ResourceHeader)) :=
  recvFrame (deserializeResourceHeader Messagepack.unpack union)

/-- `filerail_recv_file_offset` -/
def recvFileOffset : W (Option (Outcome UInt64)) :=
  recvFrame (deserializeFileOffset Messagepack.unpack union)

/-- `filerail_recv_resource_hash` -/
def recvResourceHash : W (Option (Outcome Hash)) :=
  recvFrame (deserializeResourceHash Messagepack.unpack union)

/-- `filerail_recv_data_packet` -/
def recvDataPacket : W (Option (Outcome DataPacket)) :=
  recvFrame (deserializeDataPacket Messagepack.unpack union)

end Receiving

end Wire

/-! ### Sequences of messages -/

/-- A string that fits its field, with its terminator. -/
structure FitsBuffer (n : Nat) (s : CStr) : Prop where
  short : s.length < n
  clean : (0 : UInt8) ∉ s

/-- The arguments of one of the six sending functions. -/
inductive Message where
  | commandHeader (type : UInt8)
  | responseHeader (type : UInt8)
  | resourceHeader (name dir : CStr) (resource_size : UInt64)
      (name_fits : FitsBuffer MAX_RESOURCE_LENGTH name) (dir_fits : FitsBuffer MAX_PATH_LENGTH dir)
  | fileOffset (offset : UInt64)
  | resourceHash (hash : Hash)
  | dataPacket (out : Buffer) (nbytes : UInt64)

/-- The six kinds of messages. -/
inductive MessageKind where
  | commandHeader
  | responseHeader
  | resourceHeader
  | fileOffset
  | resourceHash
  | dataPacket
deriving DecidableEq, Repr

/-- The layout of each kind: commands and responses have the same. -/
@[reducible] def MessageKind.schema : MessageKind → Schema
  | .commandHeader => .code
  | .responseHeader => .code
  | .resourceHeader => .resource
  | .fileOffset => .offset
  | .resourceHash => .hash
  | .dataPacket => .packet

namespace Message

/-- The kind of a message. -/
@[reducible] def kind : Message → MessageKind
  | .commandHeader _ => .commandHeader
  | .responseHeader _ => .responseHeader
  | .resourceHeader _ _ _ _ _ => .resourceHeader
  | .fileOffset _ => .fileOffset
  | .resourceHash _ => .resourceHash
  | .dataPacket _ _ => .dataPacket

/-- What the frame of a message carries. -/
def value : (m : Message) → m.kind.schema.Val
  | .commandHeader type => type
  | .responseHeader type => type
  | .resourceHeader name dir resource_size _ _ =>
      { resource_size := resource_size
        resource_name := pad MAX_RESOURCE_LENGTH name
        resource_dir := pad MAX_PATH_LENGTH dir }
  | .fileOffset offset => offset
  | .resourceHash hash => hash
  | .dataPacket out nbytes => { data_payload := out, data_size := nbytes }

/-- Send a message with the function for its kind. -/
def send : Message → W Int
  | .commandHeader type => Wire.sendCommandHeader type
  | .responseHeader type => Wire.sendResponseHeader type
  | .resourceHeader name dir resource_size _ _ => Wire.sendResourceHeader name dir resource_size
  | .fileOffset offset => Wire.sendFileOffset offset
  | .resourceHash hash => Wire.sendResourceHash hash
  | .dataPacket out nbytes => Wire.sendDataPacket out nbytes

end Message

/-- Receive a message with the function for its kind. -/
def MessageKind.recv (union : Union) : (kind : MessageKind) → W (Option (Outcome kind.schema.Val))
  | .commandHeader => Wire.recvCommandHeader union
  | .responseHeader => Wire.recvResponseHeader union
  | .resourceHeader => Wire.recvResourceHeader union
  | .fileOffset => Wire.recvFileOffset union
  | .resourceHash => Wire.recvResourceHash union
  | .dataPacket => Wire.recvDataPacket union

/-- What a receiving function returned. -/
abbrev Receipt := Σ kind : MessageKind, Option (Outcome kind.schema.Val)

/-- Send messages one after the other. -/
def sendAll : List Message → W (List Int)
  | [] => return []
  | m :: rest => do
      let status ← m.send
      let others ← sendAll rest
      return status :: others

/-- Receive messages of these kinds one after the other. -/
def recvAll (union : Union) : List MessageKind → W (List Receipt)
  | [] => return []
  | kind :: rest => do
      let first ← kind.recv union
      let others ← recvAll union rest
      return ⟨kind, first⟩ :: others

end Filerail
