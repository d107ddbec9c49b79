/-
Module: Filerail.Core.Operations
Layer: Core
Purpose: `filerail_sendfile_handler` and `filerail_recvfile_handler` of `operations.h`: the two sides
  of the transfer of one resource. The labels of the C code (`restart`, `clean_files`, `clean_up`)
  are functions; a `goto` is a call in tail position.
Imports: Filerail.Core.Utils, Filerail.Core.Socket
Main exports: zipResource, sendfileHandler, checkpointPath, negotiate, recvfileHandler
-/
import Filerail.Core.Utils
import Filerail.Core.Socket

namespace Filerail

open ProgramLogic

variable {lib : Lib}

/-! ### The sender -/

/-- Zip the resource in the current directory. Answers the archive, if it was opened, and whether all
    of the resource went into it. -/
def zipResource (zip_filename resource_name : CStr) (stat_resource : Stat) :
    L lib (Option Zip × Bool) := do
  match ← zipOpen zip_filename with
  | none => return (none, false)
  | some zip =>
      let (zip, ok) ←
        if stat_resource.st_mode = .dir then zipFolder MAX_PATH_LENGTH zip resource_name
        else zipFile zip resource_name
      return (some zip, ok)

/-- Ask the user, unless this is the server, whether to resume. -/
def wantsResume (is_server : Bool) : L lib Bool := do
  if is_server then return true
  else
    let option ← scanf
    return option = 89 ∨ option = 121

/-- The sender's answer to the receiver's command: the offset to send from, or `none` to clean up. -/
def answerCommand (is_server : Bool) (command_type : UInt8) : P lib (Option UInt64) := do
  if command_type = Command.resume.code then
    if ← (wantsResume is_server).loc then
      if ← sendResponseHeader Response.ok.code then recvFileOffset
      else return none
    else
      if ← sendResponseHeader Command.abort.code then return some 0 else return none
  else if command_type = Command.restart.code then return some 0
  else
    protocolNotFollowed.loc
    return some 0

/-- What the sender returns for the receiver's verdict. -/
def verdictStatus (response_type : UInt8) : L lib Int := do
  if response_type = Response.ok.code then return 0
  else if response_type = Response.noIntegrity.code then return -1
  else
    protocolNotFollowed
    return -1

/-- `clean_up` of the sender. -/
def senderCleanUp (zip : Option Zip) (exit_status : Int) : L lib Int := do
  zipClose zip
  return exit_status

/-- The sender after the transfer: wait for the verdict, remove the archive and go back. -/
def finishSending (zip_filename current_dir : CStr) : P lib Int := do
  match ← recvResponseHeader with
  | none => (senderCleanUp none (-1)).loc
  | some response_type =>
      let exit_status ← (verdictStatus response_type).loc
      if ← (rm zip_filename).loc then
        if ← (cd current_dir).loc then (senderCleanUp none exit_status).loc
        else (senderCleanUp none (-1)).loc
      else (senderCleanUp none (-1)).loc

/-- The sender from the hash on. -/
def offerZip (is_server : Bool) (zip_filename current_dir : CStr) (K : AESKeys) : P lib Int := do
  match ← (md5 zip_filename).loc with
  | none => (senderCleanUp none (-1)).loc
  | some hash =>
      if ← sendResourceHash hash then
        match ← recvCommandHeader with
        | none => (senderCleanUp none (-1)).loc
        | some command_type =>
            match ← answerCommand is_server command_type with
            | none => (senderCleanUp none (-1)).loc
            | some offset =>
                let status ← sendfile zip_filename K offset
                if status = -1 then (senderCleanUp none (-1)).loc
                else finishSending zip_filename current_dir
      else (senderCleanUp none (-1)).loc

/-- `filerail_sendfile_handler` -/
def sendfileHandler (is_server : Bool) (resource_dir resource_name : CStr) (stat_resource : Stat)
    (K : AESKeys) : P lib Int := do
  let zip_filename := resource_name ++ dotZip
  match ← getcwd.loc with
  | none =>
      zipCloseWild.loc
      return -1
  | some current_dir =>
      if ← (cd resource_dir).loc then
        let (zip, ok) ← (zipResource zip_filename resource_name stat_resource).loc
        if ok then
          (zipClose zip).loc
          offerZip is_server zip_filename current_dir K
        else (senderCleanUp zip 0).loc
      else
        zipCloseWild.loc
        return -1

/-! ### The receiver -/

/-- The path the receiver looks for a checkpoint under. -/
def checkpointPath (mem : Memory) (ckpt_path : CStr) (hash : Hash) : CStr :=
  ckpt_path ++ slash :: (hashToStr hash ++ mem.afterHex)

/-- The label `restart`. -/
def restart (fp : Option Stream) (exit_status : Int) :
    P lib (Option Stream × Int × Option UInt64) := do
  if ← sendCommandHeader Command.restart.code then return (fp, exit_status, some 0)
  else return (fp, -1, none)

/-- Offer the sender to resume from a checkpoint. -/
def offerResume (fp : Stream) (ckpt : Checkpoint) :
    P lib (Option Stream × Int × Option UInt64) := do
  if ← sendCommandHeader Command.resume.code then
    match ← recvResponseHeader with
    | none => return (some fp, -1, none)
    | some response_type =>
        if response_type = Response.ok.code then
          if ← sendFileOffset ckpt.offset then return (some fp, 0, some ckpt.offset)
          else return (some fp, -1, none)
        else if response_type = Command.abort.code then return (some fp, 0, some 0)
        else
          protocolNotFollowed.loc
          return (some fp, 0, none)
  else return (some fp, -1, none)

/-- Search for a checkpoint and agree with the sender on where to start. Answers the stream of the
    checkpoint, the exit status so far, and the offset, or `none` to clean up. -/
def negotiate (ckpt_resource_path resource_path : CStr) :
    P lib (Option Stream × Int × Option UInt64) := do
  match ← (isExists ckpt_resource_path).loc with
  | none => restart none 0
  | some _ =>
      if ← (isReadable ckpt_resource_path).loc then
        match ← (fopen ckpt_resource_path .rb).loc with
        | none => restart none (-1)
        | some fp =>
            let (bytes, fp) ← (fread fp sizeofCheckpoint).loc
            if bytes.length ≠ sizeofCheckpoint then restart (some fp) (-1)
            else
              let ckpt := Checkpoint.ofImage bytes
              if ckpt.pathStr ≠ resource_path then restart (some fp) 0
              else
                match ← (stat resource_path).loc with
                | none => restart (some fp) (-1)
                | some stat_path =>
                    if ckpt.offset.toNat > stat_path.st_size then restart (some fp) 0
                    else offerResume fp ckpt
      else return (none, -1, none)

/-- `clean_up` of the receiver. -/
def receiverCleanUp (fp : Option Stream) (exit_status : Int) : L lib Int := do
  closeIf fp
  return exit_status

/-- The label `clean_files`: go back, and remove the archive and the checkpoint. -/
def cleanFiles (fp : Option Stream) (exit_status : Int)
    (current_dir resource_path ckpt_resource_path : CStr) : L lib Int := do
  if ← cd current_dir then
    if ← rm resource_path then
      if ← rm ckpt_resource_path then receiverCleanUp fp exit_status
      else receiverCleanUp fp (-1)
    else receiverCleanUp fp (-1)
  else receiverCleanUp fp (-1)

/-- The receiver after the transfer: verify the hash, answer, extract and clean up. -/
def finishReceiving (fp : Option Stream) (exit_status : Int) (hash : Hash)
    (current_dir resource_name resource_dir resource_path ckpt_resource_path : CStr) :
    P lib Int := do
  if ← (cd resource_dir).loc then
    let zip_filename := resource_name ++ dotZip
    match ← (md5 zip_filename).loc with
    | none => (receiverCleanUp fp (-1)).loc
    | some computed_hash =>
        if computed_hash = hash then
          if ← sendResponseHeader Response.ok.code then
            if ← (zipExtract zip_filename resource_dir).loc then
              (cleanFiles fp exit_status current_dir resource_path ckpt_resource_path).loc
            else (receiverCleanUp fp (-1)).loc
          else (receiverCleanUp fp (-1)).loc
        else
          if ← sendResponseHeader Response.noIntegrity.code then
            (cleanFiles fp exit_status current_dir resource_path ckpt_resource_path).loc
          else (receiverCleanUp fp (-1)).loc
  else (receiverCleanUp fp (-1)).loc

/-- `filerail_recvfile_handler` -/
def recvfileHandler (mem : Memory) (resource_name resource_dir resource_path ckpt_path : CStr)
    (K : AESKeys) : P lib Int := do
  match ← getcwd.loc with
  | none => (receiverCleanUp none (-1)).loc
  | some current_dir =>
      match ← recvResourceHash with
      | none => (receiverCleanUp none (-1)).loc
      | some hash =>
          let ckpt_resource_path := checkpointPath mem ckpt_path hash
          let (fp, exit_status, offset) ← negotiate ckpt_resource_path resource_path
          match offset with
          | none => (receiverCleanUp fp exit_status).loc
          | some offset =>
              let status ← recvfile mem resource_path K offset ckpt_resource_path resource_path
              if status = -1 then (receiverCleanUp fp (-1)).loc
              else
                finishReceiving fp exit_status hash current_dir resource_name resource_dir
                  resource_path ckpt_resource_path

end Filerail
