/-
Module: Filerail.Core.Socket
Layer: Core
Purpose: `filerail_sendfile` and `filerail_recvfile` of `socket.h`: the packet loops of a transfer,
  with the seek to the resume offset and, on the receiving side, the checkpoint that is written to a
  temporary file and renamed after each packet. A loop keeps the variables of the C loop; a jump to
  `clean_up` ends it.
Imports: Filerail.Core.Crypto
Main exports: Memory, sendRound, sendfile, seekRound, writeCheckpoint, recvRound, recvfile
-/
import Filerail.Core.Crypto

namespace Filerail

open ProgramLogic

variable {lib : Lib}

/-- What lies in memory that the code reads or copies without having set it: the bytes after
    `hex_str` up to the next zero, and the path buffer and the padding of `ckpt`. -/
structure Memory where
  afterHex : CStr
  path : List.Vector UInt8 MAX_PATH_LENGTH
  padding : List.Vector UInt8 CHECKPOINT_PADDING

/-- `if (fp != NULL) fclose(fp);` -/
def closeIf : Option Stream → L lib Unit
  | none => return ()
  | some fp => fclose fp

/-- `clean_up` of both functions: close what is open and reset the timeout. -/
def transferCleanUp (fp fckpt : Option Stream) (exit_status : Int) : L lib Int := do
  closeIf fp
  closeIf fckpt
  if ← setTimeout TIME_OUT then return exit_status else return -1

/-! ### Sending -/

/-- One round of the loop of `filerail_sendfile`. -/
def sendRound (K : AESKeys) (st : Stream × UInt64) :
    P lib ((Stream × UInt64) ⊕ (Stream × Bool)) := do
  let (fp, size) := st
  (remaining size).loc
  if size = 0 then return .inr (fp, true)
  else
    let (input, fp) ← (fread fp (min BUFFER_SIZE size.toNat)).loc
    if input.length ≠ min BUFFER_SIZE size.toNat ∧ fp.err = true then return .inr (fp, false)
    else
      match encrypt lib (pad BUFFER_SIZE input) K with
      | none => return .inr (fp, false)
      | some out =>
          if ← sendDataPacket out (.ofNat input.length) then
            return .inl (fp, size - .ofNat input.length)
          else return .inr (fp, false)

/-- `filerail_sendfile` -/
def sendfile (zip_filename : CStr) (K : AESKeys) (offset : UInt64) : P lib Int := do
  match ← (fopen zip_filename .rb).loc with
  | none => (transferCleanUp none none (-1)).loc
  | some fp =>
      match ← (stat zip_filename).loc with
      | none => (transferCleanUp (some fp) none (-1)).loc
      | some stat_path =>
          if ← sendResourceHeader [] [] (.ofNat stat_path.st_size) then
            let size := .ofNat stat_path.st_size - offset
            match ← (fseek fp offset).loc with
            | none => (transferCleanUp (some fp) none (-1)).loc
            | some fp =>
                if ← (setTimeout MAX_IO_TIME_OUT).loc then
                  let (fp, ok) ← Prog.iterate (sendRound K) (fp, size)
                  (transferCleanUp (some fp) none (if ok then 0 else -1)).loc
                else (transferCleanUp (some fp) none (-1)).loc
          else (transferCleanUp (some fp) none (-1)).loc

/-! ### Receiving -/

/-- One round of the loop that moves the stream to the resume offset byte by byte. The counter is a
    32-bit `int`, compared with the offset as an unsigned 64-bit number. -/
def seekRound (offset : UInt64) (st : BitVec 32 × Option Stream) :
    L lib ((BitVec 32 × Option Stream) ⊕ (Option Stream × Bool)) := do
  let (i, fp) := st
  if (i.signExtend 64).toNat < offset.toNat then
    match fp with
    | none => crash
    | some fp =>
        let (c, fp) ← fgetc fp
        match c with
        | none => return .inr (some fp, false)
        | some _ => return .inl (i + 1, some fp)
  else return .inr (fp, true)

/-- Open the partial file: truncated when the transfer starts over, else moved to the offset. -/
def openPartial (zip_filename : CStr) (offset : UInt64) : L lib (Option Stream × Bool) := do
  if offset = 0 then
    let fp ← fopen zip_filename .wb
    return (fp, true)
  else
    let fp ← fopen zip_filename .rPlusB
    Prog.iterate (seekRound offset) (0, fp)

/-- Write a checkpoint to the temporary file and rename it. Answers the stream that is still open
    when a step fails, and whether all went well. -/
def writeCheckpoint (image : List UInt8) (tmp_ckpt_resource_path ckpt_resource_path : CStr) :
    L lib (Option Stream × Bool) := do
  match ← fopen tmp_ckpt_resource_path .wb with
  | none => return (none, false)
  | some fckpt =>
      let (written, fckpt) ← fwrite fckpt image sizeofCheckpoint
      if written ≠ sizeofCheckpoint then return (some fckpt, false)
      else
        let fckpt ← fflush fckpt
        fclose fckpt
        let renamed ← rename tmp_ckpt_resource_path ckpt_resource_path
        return (none, renamed)

/-- One round of the loop of `filerail_recvfile`. The state is the stream, the bytes still to come
    and the offset of the checkpoint. -/
def recvRound (K : AESKeys) (mem : Memory) (ckpt_resource_path resource_path : CStr)
    (st : Stream × UInt64 × UInt64) :
    P lib ((Stream × UInt64 × UInt64) ⊕ (Stream × Option Stream × Bool)) := do
  let (fp, size, offset) := st
  (remaining size).loc
  if size = 0 then return .inr (fp, none, true)
  else
    match ← recvDataPacket with
    | none => return .inr (fp, none, false)
    | some data =>
        let nbytes := data.data_size
        match decrypt lib data.data_payload K with
        | none => return .inr (fp, none, false)
        | some out =>
            let (written, fp) ← (fwrite fp out.toList nbytes.toNat).loc
            if written ≠ nbytes.toNat ∧ fp.err = true then return .inr (fp, none, false)
            else
              let fp ← (fflush fp).loc
              let ckpt : Checkpoint :=
                { offset := offset + nbytes, resource_path := strcpy mem.path resource_path }
              let (fckpt, ok) ← (writeCheckpoint (ckpt.image mem.padding)
                (ckpt_resource_path ++ dotTmp) ckpt_resource_path).loc
              if ok then return .inl (fp, size - nbytes, offset + nbytes)
              else return .inr (fp, fckpt, false)

/-- `filerail_recvfile` -/
def recvfile (mem : Memory) (zip_filename : CStr) (K : AESKeys) (offset : UInt64)
    (ckpt_resource_path resource_path : CStr) : P lib Int := do
  let (fp, moved) ← (openPartial zip_filename offset).loc
  if moved then
    match fp with
    | none => (transferCleanUp none none (-1)).loc
    | some fp =>
        match ← recvResourceHeader with
        | none => (transferCleanUp (some fp) none (-1)).loc
        | some resource =>
            let size := resource.resource_size - offset
            if ← (setTimeout MAX_IO_TIME_OUT).loc then
              let (fp, fckpt, ok) ←
                Prog.iterate (recvRound K mem ckpt_resource_path resource_path) (fp, size, offset)
              (transferCleanUp (some fp) fckpt (if ok then 0 else -1)).loc
            else (transferCleanUp (some fp) none (-1)).loc
  else (transferCleanUp fp none (-1)).loc

end Filerail
