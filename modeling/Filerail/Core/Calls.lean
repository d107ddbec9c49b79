/-
Module: Filerail.Core.Calls
Layer: Core
Purpose: The calls of `Sys` as programs, under the names the code calls them by, and the two kinds of
  functions the model has: local ones (`L`), which only make such calls, and those that also use the
  connection (`P`), where a local one appears as its lifting `.loc`. The functions `filerail_send_*` and `filerail_recv_*` appear here as the sending
  and receiving of one typed frame; commands and responses are one schema, as they are on the wire.
Imports: Filerail.Core.Machine, Filerail.Logic.Endpoint
Main exports: L, P, Schema, Schema.Val, sendResponseHeader, recvResponseHeader, sendDataPacket, …
-/
import Filerail.Core.Machine
import Filerail.Logic.Endpoint

namespace Filerail

open ProgramLogic

/-! ### Frames -/

/-- The layouts of a frame. -/
inductive Schema where
  | code
  | resource
  | offset
  | hash
  | packet
deriving DecidableEq, Repr

/-- What a frame of each layout carries. -/
@[reducible] def Schema.Val : Schema → Type
  | .code => UInt8
  | .resource => ResourceHeader
  | .offset => UInt64
  | .hash => Hash
  | .packet => DataPacket

instance (kind : Schema) : DecidableEq kind.Val := by
  cases kind <;> exact inferInstance

/-- A function that makes local calls only. -/
abbrev L (lib : Lib) (α : Type) := Prog (Sys lib.md5.Ctx) Sys.Resp α

/-- A function that uses the connection. -/
abbrev P (lib : Lib) (α : Type) :=
  Prog (Act (Sys lib.md5.Ctx) Schema.Val) (Act.Answer Sys.Resp) α

variable {lib : Lib}

/-! ### Local calls -/

/-- Make a local call. -/
abbrev sys (e : Sys lib.md5.Ctx) : L lib e.Resp := Prog.perform e

abbrev getcwd : L lib (Option CStr) := sys .getcwd

abbrev chdir (path : CStr) : L lib Bool := sys (.chdir path)

abbrev lstat (path : CStr) : L lib (Option Stat) := sys (.lstat path)

abbrev stat (path : CStr) : L lib (Option Stat) := sys (.stat path)

abbrev access (path : CStr) (mode : Access) : L lib Bool := sys (.access path mode)

abbrev statvfs (path : CStr) : L lib (Option (UInt64 × UInt64)) := sys (.statvfs path)

abbrev fopen (path : CStr) (mode : Mode) : L lib (Option Stream) := sys (.fopen path mode)

abbrev fread (fp : Stream) (n : Nat) : L lib (List UInt8 × Stream) := sys (.fread fp n)

abbrev fgetc (fp : Stream) : L lib (Option UInt8 × Stream) := sys (.fgetc fp)

abbrev fwrite (fp : Stream) (buffer : List UInt8) (n : Nat) : L lib (Nat × Stream) :=
  sys (.fwrite fp buffer n)

abbrev fflush (fp : Stream) : L lib Stream := sys (.fflush fp)

abbrev fclose (fp : Stream) : L lib Unit := sys (.fclose fp)

/-- `rewind` followed by `fseek` from the start. -/
abbrev fseek (fp : Stream) (offset : UInt64) : L lib (Option Stream) := sys (.fseek fp offset)

abbrev rename (path path' : CStr) : L lib Bool := sys (.rename path path')

abbrev unlink (path : CStr) : L lib Bool := sys (.unlink path)

abbrev rmdir (path : CStr) : L lib Bool := sys (.rmdir path)

/-- `opendir` and what `readdir` will deliver, without `"."` and `".."`. -/
abbrev opendir (path : CStr) : L lib (Option (List Name)) := sys (.opendir path)

abbrev zipOpen (path : CStr) : L lib (Option Zip) := sys (.zipOpen path)

abbrev zipEntryOpen (zip : Zip) (name : CStr) : L lib (Option Zip) :=
  sys (.zipEntryOpen zip name)

abbrev zipEntryFwrite (zip : Zip) (path : CStr) : L lib (Option Zip) :=
  sys (.zipEntryFwrite zip path)

abbrev zipEntryClose (zip : Zip) : L lib (Option Zip) := sys (.zipEntryClose zip)

abbrev zipClose (zip : Option Zip) : L lib Unit := sys (.zipClose zip)

abbrev zipCloseWild : L lib Unit := sys .zipCloseWild

abbrev zipExtract (path dir : CStr) : L lib Bool := sys (.zipExtract path dir)

abbrev md5Final (ctx : lib.md5.Ctx) : L lib Hash := sys (.md5Final ctx)

/-- `filerail_set_timeout` on receives. -/
abbrev setTimeout (seconds : Nat) : L lib Bool := sys (.setRcvTimeout seconds)

abbrev scanf : L lib UInt8 := sys .scanf

def crash {α : Type} : L lib α := (sys .crash).bind (fun dead : Empty => dead.elim)

abbrev protocolNotFollowed : L lib Unit := sys .protocolNotFollowed

abbrev remaining (size : UInt64) : L lib Unit := sys (.remaining size)

/-! ### Frames sent and received

A send answers whether it succeeded; a receive answers what it decoded, or nothing. -/

/-- Send one frame. -/
abbrev send (kind : Schema) (value : kind.Val) : P lib Bool :=
  Prog.perform (E := Act (Sys lib.md5.Ctx) Schema.Val) (R := Act.Answer Sys.Resp) (.send kind value)

/-- Receive one frame. -/
abbrev recv (kind : Schema) : P lib (Option kind.Val) :=
  Prog.perform (E := Act (Sys lib.md5.Ctx) Schema.Val) (R := Act.Answer Sys.Resp) (.recv kind)

/-- `filerail_send_command_header` -/
abbrev sendCommandHeader (type : UInt8) : P lib Bool :=
  send .code type

/-- `filerail_send_response_header` -/
abbrev sendResponseHeader (type : UInt8) : P lib Bool :=
  send .code type

/-- `filerail_send_resource_header` -/
abbrev sendResourceHeader (name dir : CStr) (resource_size : UInt64) : P lib Bool :=
  send .resource
    { resource_size := resource_size
      resource_name := pad MAX_RESOURCE_LENGTH name
      resource_dir := pad MAX_PATH_LENGTH dir }

/-- `filerail_send_file_offset` -/
abbrev sendFileOffset (offset : UInt64) : P lib Bool :=
  send .offset offset

/-- `filerail_send_resource_hash` -/
abbrev sendResourceHash (hash : Hash) : P lib Bool :=
  send .hash hash

/-- `filerail_send_data_packet` -/
abbrev sendDataPacket (out : Buffer) (nbytes : UInt64) : P lib Bool :=
  send .packet
    { data_payload := out, data_size := nbytes }

/-- `filerail_recv_command_header` -/
abbrev recvCommandHeader : P lib (Option UInt8) :=
  recv .code

/-- `filerail_recv_response_header` -/
abbrev recvResponseHeader : P lib (Option UInt8) :=
  recv .code

/-- `filerail_recv_resource_header` -/
abbrev recvResourceHeader : P lib (Option ResourceHeader) :=
  recv .resource

/-- `filerail_recv_file_offset` -/
abbrev recvFileOffset : P lib (Option UInt64) :=
  recv .offset

/-- `filerail_recv_resource_hash` -/
abbrev recvResourceHash : P lib (Option Hash) :=
  recv .hash

/-- `filerail_recv_data_packet` -/
abbrev recvDataPacket : P lib (Option DataPacket) :=
  recv .packet

end Filerail
