/-
Module: Filerail.Core.Names
Layer: Core
Purpose: How names are taken apart and put together in buffers of a fixed size:
  `filerail_parse_resource_path` of `utils.h`, the loop of `filerail_hash_to_str`, and every
  `strcpy` and `strcat` between a request and the end of its transfer, on the client and on the
  server. A copy that does not fit its buffer answers `none`. What a buffer holds before the code
  writes to it, and what lies behind it, is arbitrary.
Imports: Filerail.Core.Operations, Filerail.Logic.CString
Main exports: parseResourcePath, writeHash, Stack, sendfileNames, recvfileNames, clientPutNames,
  clientGetNames, serverPutNames, serverGetNames
-/
import Filerail.Core.Operations
import Filerail.Logic.CString

namespace Filerail

open CString

/-- `char [MAX_RESOURCE_LENGTH]` -/
abbrev NameBuffer := List.Vector UInt8 MAX_RESOURCE_LENGTH

/-- `char [MAX_PATH_LENGTH]` -/
abbrev PathBuffer := List.Vector UInt8 MAX_PATH_LENGTH

/-! ### Splitting a path -/

/-- Where the loop of `filerail_parse_resource_path` stops that starts at an index. -/
def scanSlash (resource_path : CStr) : Nat → Nat
  | 0 => 0
  | i + 1 => if resource_path[i + 1]? = some slash then i + 1 else scanSlash resource_path i

/-- `filerail_parse_resource_path` once the loop has stopped at an index. -/
def copyParts (resource_path : CStr) (i : Nat) (resource_name : NameBuffer)
    (resource_dir : PathBuffer) : Option (Bool × NameBuffer × PathBuffer) :=
  if resource_path.length - i - 1 > MAX_RESOURCE_LENGTH - 1 then
    some (false, resource_name, resource_dir)
  else do
    let resource_name ← store resource_name 0 (resource_path.drop (i + 1))
    let resource_dir ←
      if i = 0 then copy 0 resource_dir [slash] else store resource_dir 0 (resource_path.take i)
    return (true, resource_name, resource_dir)

/-- `filerail_parse_resource_path`: what it returns and leaves in the two buffers. -/
def parseResourcePath (resource_path : CStr) (resource_name : NameBuffer)
    (resource_dir : PathBuffer) : Option (Bool × NameBuffer × PathBuffer) :=
  if resource_path.length > MAX_PATH_LENGTH - 1 then some (false, resource_name, resource_dir)
  else do
    let resource_name ← store resource_name 0 [0]
    let resource_dir ← store resource_dir 0 [0]
    match resource_path.length with
    -- the loop over an empty path ends at `-1`
    | 0 => return (false, resource_name, resource_dir)
    | last + 1 => copyParts resource_path (scanSlash resource_path last) resource_name resource_dir

/-! ### The name of a hash -/

/-- The loop of `filerail_hash_to_str`, `rounds` times round. -/
def writeHash (hash : Hash) (hex_str : List UInt8) (rounds : Nat) : List UInt8 :=
  (List.range rounds).foldl (fun hex_str i =>
    (hex_str.set (2 * i) (decToHexChar ((0xf0 &&& hash.toList.getD i 0) >>> 4))).set (2 * i + 1)
      (decToHexChar (0x0f &&& hash.toList.getD i 0))) hex_str

/-! ### Composing names -/

/-- What lies in the buffers before the code writes to them, and behind those it reads a string
    from. -/
structure Stack where
  resource_name : NameBuffer
  afterName : List UInt8
  resource_dir : PathBuffer
  afterDir : List UInt8
  resource_path : PathBuffer
  header_name : NameBuffer
  header_dir : PathBuffer
  zip_filename : NameBuffer
  ckpt_resource_path : PathBuffer
  tmp_ckpt_resource_path : PathBuffer
  ckpt_path : PathBuffer
  hex_str : List.Vector UInt8 (2 * MD5_HASH_LENGTH)
  afterHex : List UInt8
  padding : List.Vector UInt8 CHECKPOINT_PADDING

/-- The part of it that the handlers see. -/
def Stack.memory (stack : Stack) : Memory where
  afterHex := cstr stack.afterHex
  path := stack.ckpt_path
  padding := stack.padding

/-- The string `hex_str` is read as once the digits of a hash are in it. -/
def Stack.hexRead (stack : Stack) (hash : Hash) : CStr :=
  cstr (writeHash hash stack.hex_str.toList MD5_HASH_LENGTH ++ stack.afterHex)

/-- The strings a receiver works with. -/
structure ReceiverNames where
  ckpt_resource_path : CStr
  ckpt : PathBuffer
  tmp_ckpt_resource_path : CStr
  zip_filename : CStr

section Flows

variable (stack : Stack)

/-- The name `filerail_sendfile_handler` composes. -/
def sendfileNames (resource_name : CStr) : Option CStr := do
  let zip_filename ← compose 0 stack.zip_filename resource_name [dotZip]
  return cstr zip_filename.toList

/-- The names `filerail_recvfile_handler` and `filerail_recvfile` compose. -/
def recvfileNames (resource_name resource_path ckpt_path : CStr) (hash : Hash) :
    Option ReceiverNames := do
  let ckpt_resource_path ←
    compose 0 stack.ckpt_resource_path ckpt_path [[slash], stack.hexRead hash]
  let ckpt ← copy 0 stack.ckpt_path resource_path
  let tmp_ckpt_resource_path ←
    compose 0 stack.tmp_ckpt_resource_path (cstr ckpt_resource_path.toList) [dotTmp]
  let zip_filename ← compose 0 stack.zip_filename resource_name [dotZip]
  return {
    ckpt_resource_path := cstr ckpt_resource_path.toList
    ckpt := ckpt
    tmp_ckpt_resource_path := cstr tmp_ckpt_resource_path.toList
    zip_filename := cstr zip_filename.toList }

/-- The copies of `filerail_send_resource_header`. -/
def headerNames (name dir : CStr) : Option (NameBuffer × PathBuffer) := do
  let resource_name ← copy 0 stack.header_name name
  let resource_dir ← copy 0 stack.header_dir dir
  return (resource_name, resource_dir)

/-- The string in `resource_name` of the client after the path was split. -/
def Stack.nameRead (resource_name : NameBuffer) : CStr :=
  cstr (resource_name.toList ++ stack.afterName)

/-- The string in `resource_dir` of the client after the path was split. -/
def Stack.dirRead (resource_dir : PathBuffer) : CStr :=
  cstr (resource_dir.toList ++ stack.afterDir)

/-- The client's `put`. Nothing is composed for a path that is rejected. -/
def clientPutNames (res_path des_path : CStr) : Option (Option CStr) := do
  let (parsed, resource_name, _) ← parseResourcePath res_path stack.resource_name stack.resource_dir
  if parsed then
    let _ ← headerNames stack (stack.nameRead resource_name) des_path
    let zip_filename ← sendfileNames stack (stack.nameRead resource_name)
    return some zip_filename
  else return none

/-- The client's `get`. -/
def clientGetNames (res_path des_path ckpt_path : CStr) (hash : Hash) :
    Option (Option ReceiverNames) := do
  let (parsed, resource_name, resource_dir) ←
    parseResourcePath res_path stack.resource_name stack.resource_dir
  if parsed then
    let resource_path ←
      compose 0 stack.resource_path des_path [[slash], stack.nameRead resource_name]
    let _ ← headerNames stack (stack.nameRead resource_name) (stack.dirRead resource_dir)
    let resource_path ← append 0 resource_path dotZip
    let names ← recvfileNames stack (stack.nameRead resource_name) (cstr resource_path.toList)
      ckpt_path hash
    return some names
  else return none

/-- The server's `PUT`. -/
def serverPutNames (resource : ResourceHeader) (ckpt_path : CStr) (hash : Hash) :
    Option ReceiverNames := do
  let resource_path ← compose 0 stack.resource_path resource.dirStr [[slash], resource.nameStr]
  let resource_path ← append 0 resource_path dotZip
  recvfileNames stack resource.nameStr (cstr resource_path.toList) ckpt_path hash

/-- The server's `GET`. -/
def serverGetNames (resource : ResourceHeader) : Option CStr := do
  let _ ← compose 0 stack.resource_path resource.dirStr [[slash], resource.nameStr]
  let _ ← headerNames stack [] []
  sendfileNames stack resource.nameStr

end Flows

end Filerail
