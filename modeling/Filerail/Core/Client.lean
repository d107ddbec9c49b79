/-
Module: Filerail.Core.Client
Layer: Core
Purpose: The three operations of `filerail_client.c`, from the connection on. The strings the client
  works with are those its buffers are read as. A `goto clean_up` is a return, and the return closes
  the connection; what is only printed is left out.
Imports: Filerail.Core.Names
Main exports: clientPing, clientPutFile, clientPut, clientGet, runOperation
-/
import Filerail.Core.Names

namespace Filerail

open ProgramLogic

variable {lib : Lib}

/-- Ask the user whether to overwrite. -/
def wantsOverwrite : L lib Bool := do
  let option ← scanf
  return option = 89 ∨ option = 121

/-- The operation `ping`. -/
def clientPing : P lib Int := do
  if ← sendCommandHeader Command.ping.code then
    match ← recvResponseHeader with
    | none => return -1
    | some response_type =>
        if response_type = Response.pong.code then return 0
        else
          protocolNotFollowed.loc
          return 0
  else return -1

section Uploading

variable (K : AESKeys)

/-- The label `put_file` of the client. -/
def clientPutFile (resource_dir resource_name : CStr) (stat_path : Stat) : P lib Int := do
  let status ← sendfileHandler false resource_dir resource_name stat_path K
  return if status = -1 then -1 else 0

/-- The client's side of an upload once the path of the resource is split. -/
def requestPut (resource_name resource_dir des_path : CStr) (stat_path : Stat) : P lib Int := do
  if ← sendResourceHeader resource_name des_path (.ofNat stat_path.st_size) then
    match ← recvResponseHeader with
    | none => return -1
    | some response_type =>
        if response_type = Response.noAccess.code then return 0
        else if response_type = Response.duplicateResourceName.code then
          if ← wantsOverwrite.loc then
            if ← sendResponseHeader Command.overwrite.code then
              clientPutFile K resource_dir resource_name stat_path
            else return -1
          else
            if ← sendResponseHeader Command.abort.code then return 0 else return -1
        else if response_type = Response.notFound.code then return 0
        else if response_type = Response.insufficientSpace.code then return 0
        else if response_type = Response.ok.code then
          clientPutFile K resource_dir resource_name stat_path
        else
          protocolNotFollowed.loc
          return 0
  else return -1

/-- The operation `put`. The command goes out before the path is split. -/
def clientPut (stack : Stack) (res_path des_path : CStr) : P lib Int := do
  match ← (isExists res_path).loc with
  | none => return 0
  | some stat_path =>
      if ← (isReadable res_path).loc then
        if isFile stat_path || isDir stat_path then
          if ← sendCommandHeader Command.put.code then
            match parseResourcePath res_path stack.resource_name stack.resource_dir with
            | none => crash.loc
            | some (parsed, resource_name, resource_dir) =>
                if parsed then
                  requestPut K (stack.nameRead resource_name) (stack.dirRead resource_dir) des_path
                    stat_path
                else return 0
          else return -1
        else return 0
      else return 0

end Uploading

section Downloading

variable (mem : Memory) (ckpt_path : CStr) (K : AESKeys)

/-- The label `get_file`. When the answer to the size cannot be sent the code goes on into the
    transfer. -/
def requestGet (resource_name resource_dir des_path : CStr) : P lib Int := do
  if ← sendCommandHeader Command.get.code then
    if ← sendResourceHeader resource_name resource_dir 0 then
      match ← recvResponseHeader with
      | none => return -1
      | some response_type =>
          if response_type = Response.ok.code then
            match ← recvResourceHeader with
            | none => return -1
            | some resource =>
                if ← (checkStorageSize resource.resource_size).loc then
                  let accepted ← sendResponseHeader Response.ok.code
                  let status ← recvfileHandler mem resource_name des_path
                    (des_path ++ slash :: resource_name ++ dotZip) ckpt_path K
                  return if accepted ∧ status ≠ -1 then 0 else -1
                else
                  if ← sendResponseHeader Command.abort.code then return 0 else return -1
          else if response_type = Response.notFound.code then return 0
          else if response_type = Response.noAccess.code then return 0
          else if response_type = Response.badResource.code then return 0
          else
            protocolNotFollowed.loc
            return 0
    else return -1
  else return -1

/-- The client's side of a download once the path of the resource is split. -/
def prepareGet (resource_name resource_dir des_path : CStr) : P lib Int := do
  let resource_path := des_path ++ slash :: resource_name
  match ← (isExists resource_path).loc with
  | some _ =>
      if ← wantsOverwrite.loc then
        if ← (isWriteable resource_path).loc then
          requestGet mem ckpt_path K resource_name resource_dir des_path
        else return 0
      else return 0
  | none =>
      match ← (stat des_path).loc with
      | none => return -1
      | some _ =>
          if ← (isWriteable des_path).loc then
            requestGet mem ckpt_path K resource_name resource_dir des_path
          else return 0

end Downloading

/-- The operation `get`. -/
def clientGet (stack : Stack) (ckpt_path : CStr) (K : AESKeys) (res_path des_path : CStr) :
    P lib Int :=
  match parseResourcePath res_path stack.resource_name stack.resource_dir with
  | none => crash.loc
  | some (parsed, resource_name, resource_dir) =>
      if parsed then
        prepareGet stack.memory ckpt_path K (stack.nameRead resource_name)
          (stack.dirRead resource_dir) des_path
      else return 0

/-- `"ping"` -/
def PING_OPERATION : CStr := [112, 105, 110, 103]

/-- `"put"` -/
def PUT_OPERATION : CStr := [112, 117, 116]

/-- `"get"` -/
def GET_OPERATION : CStr := [103, 101, 116]

/-- The client, from the connection on. An upload or a download needs both of its options. -/
def runOperation (stack : Stack) (ckpt_path : CStr) (K : AESKeys) (operation : CStr)
    (res_path des_path : Option CStr) : P lib Int :=
  if operation = PING_OPERATION then clientPing
  else if operation = PUT_OPERATION then
    match res_path, des_path with
    | some res_path, some des_path => clientPut K stack res_path des_path
    | _, _ => return 0
  else if operation = GET_OPERATION then
    match res_path, des_path with
    | some res_path, some des_path => clientGet stack ckpt_path K res_path des_path
    | _, _ => return 0
  else return 0

end Filerail
