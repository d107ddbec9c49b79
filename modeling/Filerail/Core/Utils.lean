/-
Module: Filerail.Core.Utils
Layer: Core
Purpose: The functions of `utils.h`: checks on resources, archiving a file or a directory, recursive
  removal, and the current directory. A function that returns `0` or `-1` answers `true` for `0`.
  The recursion over directories is bounded by `MAX_PATH_LENGTH`, the most levels a path in one of
  the fixed-size buffers can have; beyond that the process has overrun them.
Imports: Filerail.Core.Calls
Main exports: checkStorageSize, isExists, isReadable, isWriteable, zipFolder, zipFile, rm, cd
-/
import Filerail.Core.Calls

namespace Filerail

open ProgramLogic

variable {lib : Lib}

/-- `filerail_check_storage_size` -/
def checkStorageSize (resource_size : UInt64) : L lib Bool := do
  match ← statvfs [slash] with
  | none => return false
  | some (f_frsize, f_bavail) => return decide (resource_size / f_frsize < f_bavail)

/-- `filerail_is_file` -/
def isFile (stat_resource : Stat) : Bool :=
  stat_resource.st_mode = .reg ∨ stat_resource.st_mode = .lnk

/-- `filerail_is_dir` -/
def isDir (stat_resource : Stat) : Bool :=
  stat_resource.st_mode = .dir

/-- `filerail_is_exists`: what `lstat` found, if anything. -/
abbrev isExists (resource_path : CStr) : L lib (Option Stat) :=
  lstat resource_path

/-- `filerail_is_readable` -/
abbrev isReadable (resource_path : CStr) : L lib Bool :=
  access resource_path .r

/-- `filerail_is_writeable` -/
abbrev isWriteable (resource_path : CStr) : L lib Bool :=
  access resource_path .w

/-- `filerail_getcwd` is `getcwd`, `filerail_cd` is `chdir`. -/
abbrev cd (path : CStr) : L lib Bool :=
  chdir path

/-! ### Archiving -/

/-- Add one file to the archive: `zip_entry_open`, `zip_entry_fwrite`, `zip_entry_close`. -/
def zipEntry (zip : Zip) (path : CStr) : L lib (Zip × Bool) := do
  match ← zipEntryOpen zip path with
  | none => return (zip, false)
  | some zip =>
      match ← zipEntryFwrite zip path with
      | none => return (zip, false)
      | some zip =>
          match ← zipEntryClose zip with
          | none => return (zip, false)
          | some zip => return (zip, true)

/-- `filerail_zip_file` -/
def zipFile (zip : Zip) (resource_path : CStr) : L lib (Zip × Bool) :=
  zipEntry zip resource_path

/-- The `readdir` loop of `filerail_zip_folder`; `folder` is the recursive call. -/
def zipEntries (folder : Zip → CStr → L lib (Zip × Bool)) (resource_path : CStr) :
    Zip → List Name → L lib (Zip × Bool)
  | zip, [] => return (zip, true)
  | zip, entry :: rest => do
      -- `snprintf` cuts the path to its buffer
      let path := (resource_path ++ slash :: entry.1).take (MAX_PATH_LENGTH - 1)
      match ← lstat path with
      | none => return (zip, false)
      | some s =>
          let (zip, ok) ← if s.st_mode = .dir then folder zip path else zipEntry zip path
          if ok then zipEntries folder resource_path zip rest else return (zip, false)

/-- `filerail_zip_folder` -/
def zipFolder : Nat → Zip → CStr → L lib (Zip × Bool)
  | 0, _, _ => crash
  | depth + 1, zip, resource_path => do
      match ← opendir resource_path with
      | none => return (zip, false)
      | some entries => zipEntries (zipFolder depth) resource_path zip entries

/-! ### Removal -/

/-- The `readdir` loop of `filerail_rm`; `remove` is the recursive call. -/
def rmEntries (remove : CStr → L lib Bool) (resource_path : CStr) : List Name → L lib Bool
  | [] => return true
  | entry :: rest => do
      let path := resource_path ++ slash :: entry.1
      match ← lstat path with
      | none => return false
      | some stat_entry =>
          if ← if stat_entry.st_mode = .dir then remove path else unlink path then
            rmEntries remove resource_path rest
          else return false

/-- `filerail_rm`, `depth` levels deep. -/
def rmTree : Nat → CStr → L lib Bool
  | 0, _ => crash
  | depth + 1, resource_path => do
      match ← lstat resource_path with
      | none => return false
      | some stat_path =>
          match stat_path.st_mode with
          | .reg => unlink resource_path
          | .lnk => unlink resource_path
          | .dir =>
              match ← opendir resource_path with
              | none => return false
              | some entries =>
                  if ← rmEntries (rmTree depth) resource_path entries then rmdir resource_path
                  else return false
          | .other => return true

/-- `filerail_rm` -/
def rm (resource_path : CStr) : L lib Bool :=
  rmTree MAX_PATH_LENGTH resource_path

end Filerail
