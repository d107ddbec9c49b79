/-
Module: Filerail.Core.Server
Layer: Core
Purpose: What a child of `filerail_server.c` does for the client it was forked for: it receives one
  command, checks what the command asks for, and answers with a refusal or runs one of the two
  handlers. A `goto child_clean_up` is a return, and the return closes the connection.
Imports: Filerail.Core.Operations
Main exports: respond, serverPutFile, confirmOverwrite, servePut, serveGet, serveClient
-/
import Filerail.Core.Operations

namespace Filerail

open ProgramLogic

variable {lib : Lib}

/-- Send a response, and return a status unless that fails. -/
def respond (response : Response) (exit_status : Int) : P lib Int := do
  if ← sendResponseHeader response.code then return exit_status else return -1

/-- The path of the resource a header names: its directory, a slash and its name. -/
def ResourceHeader.path (resource : ResourceHeader) : CStr :=
  resource.dirStr ++ slash :: resource.nameStr

section Commands

variable (mem : Memory) (ckpt_path : CStr) (K : AESKeys)

/-- The label `put_file` of the server. -/
def serverPutFile (resource : ResourceHeader) : P lib Int := do
  let status ← recvfileHandler mem resource.nameStr resource.dirStr (resource.path ++ dotZip)
    ckpt_path K
  return if status = -1 then -1 else 0

/-- A resource of that name is there: ask the client, and remove it if the client says so. -/
def confirmOverwrite (resource : ResourceHeader) : P lib Int := do
  if ← sendResponseHeader Response.duplicateResourceName.code then
    match ← recvCommandHeader with
    | none => return -1
    | some command_type =>
        if command_type = Command.overwrite.code then
          if ← (rm resource.path).loc then serverPutFile mem ckpt_path K resource
          else return -1
        else if command_type = Command.abort.code then return 0
        else
          protocolNotFollowed.loc
          return 0
  else return -1

/-- The command `PUT`. -/
def servePut : P lib Int := do
  match ← recvResourceHeader with
  | none => return -1
  | some resource =>
      if ← (checkStorageSize resource.resource_size).loc then
        match ← (isExists resource.path).loc with
        | some _ =>
            if ← (isWriteable resource.path).loc then confirmOverwrite mem ckpt_path K resource
            else respond .noAccess 0
        | none =>
            match ← (stat resource.dirStr).loc with
            | none => respond .notFound (-1)
            | some _ =>
                if ← (isWriteable resource.dirStr).loc then
                  if ← sendResponseHeader Response.ok.code then
                    serverPutFile mem ckpt_path K resource
                  else return -1
                else respond .noAccess 0
      else respond .insufficientSpace 0

/-- The resource is there to be sent: advertise its size, and send it if the client wants it. A failure
    to announce it is noted, and the code goes on. -/
def offerResource (resource : ResourceHeader) (stat_path : Stat) : P lib Int := do
  let announced ← sendResponseHeader Response.ok.code
  let exit_status : Int := if announced then 0 else -1
  if ← sendResourceHeader [] [] (.ofNat stat_path.st_size) then
    match ← recvResponseHeader with
    | none => return -1
    | some response_type =>
        if response_type = Command.abort.code then return exit_status
        else if response_type = Response.ok.code then
          let status ← sendfileHandler true resource.dirStr resource.nameStr stat_path K
          return if status = -1 then -1 else exit_status
        else
          protocolNotFollowed.loc
          return exit_status
  else return -1

/-- The command `GET`. -/
def serveGet : P lib Int := do
  match ← recvResourceHeader with
  | none => return -1
  | some resource =>
      match ← (isExists resource.path).loc with
      | none => respond .notFound 0
      | some stat_path =>
          if ← (isReadable resource.path).loc then
            if isFile stat_path || isDir stat_path then offerResource K resource stat_path
            else respond .badResource 0
          else respond .noAccess 0

/-- The child, from the connection on. -/
def serveClient : P lib Int := do
  match ← recvCommandHeader with
  | none => return -1
  | some command_type =>
      if command_type = Command.put.code then servePut mem ckpt_path K
      else if command_type = Command.ping.code then respond .pong 0
      else if command_type = Command.get.code then serveGet K
      else
        protocolNotFollowed.loc
        return 0

end Commands

end Filerail
