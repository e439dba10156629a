import MessagePack.Bytes
import MessagePack.Command.Location

/-!
What paths lead to.

The working folder is given by the files below it; a subfolder is there when it holds a file.
Of all that is around it, only what every system has is known.
-/

namespace MessagePack

inductive PathFault where
  | noSuchFile
  | notFolder
  | isFolder
  | tooLong
  deriving DecidableEq

def PathFault.message : PathFault → String
  | .noSuchFile => "No such file or directory (os error 2)"
  | .notFolder => "Not a directory (os error 20)"
  | .isFolder => "Is a directory (os error 21)"
  | .tooLong => "File name too long (os error 36)"

structure Place where
  content : Except PathFault Bytes
  /-- Whether a file can be written there, in place of one that may be there. -/
  writable : Except PathFault Unit
  /-- Whether anything stays of what is written there. -/
  keeps : Bool := true

inductive Entry where
  | folder
  | file (content : Bytes)
  /-- It is always empty, whatever is written to it. -/
  | nullDevice
  deriving DecidableEq

namespace Location

def nullDevice : Location :=
  { base := .root, names := ["dev", "null"] }

end Location

/-- Folders that are found at the root. -/
def systemFolders : List String :=
  ["bin", "dev", "etc", "lib", "proc", "sbin", "sys", "tmp", "usr", "var"]

structure Folder where
  files : List (List String × Bytes) := []
  deriving DecidableEq

namespace Folder

def hasFolder (folder : Folder) (names : List String) : Bool :=
  names = [] || folder.files.any fun (file, _) => names.isPrefixOf file && names ≠ file

def entry? (folder : Folder) (location : Location) : Option Entry :=
  match location.base, location.names with
  | .above 0, names =>
      match folder.files.lookup names with
      | some content => some (.file content)
      | none => if folder.hasFolder names then some .folder else none
  | .above _, [] | .root, [] => some .folder
  | .root, [name] => if name ∈ systemFolders then some .folder else none
  | _, _ => if location = .nullDevice then some .nullDevice else none

def requireFolder (folder : Folder) (location : Location) : Except PathFault Unit :=
  match folder.entry? location with
  | some .folder => .ok ()
  | some _ => .error .notFolder
  | none => .error .noSuchFile

/-- Go on from a folder. Nothing has to be there yet. -/
def enter (folder : Folder) (location : Location) (name : String) :
    Except PathFault Location := do
  folder.requireFolder location
  if Path.maxName < name.utf8ByteSize then throw .tooLong
  return location.step name

def contentAt (folder : Folder) (path : String) : Except PathFault Bytes := do
  let location ← (Path.names path).foldlM folder.enter (Path.start path)
  match folder.entry? location with
  | none => throw .noSuchFile
  | some .folder => throw .isFolder
  | some (.file content) => if Path.endsInSlash path then throw .notFolder else return content
  | some .nullDevice => if Path.endsInSlash path then throw .notFolder else return []

/-- A path that ends in a slash can only lead to a folder. -/
def writableAt (folder : Folder) (path : String) : Except PathFault Unit := do
  match (Path.names path).getLast? with
  | none => throw .isFolder
  | some name =>
      let outer ← (Path.names path).dropLast.foldlM folder.enter (Path.start path)
      folder.requireFolder outer
      if Path.endsInSlash path then throw .isFolder
      if folder.entry? (← folder.enter outer name) = some .folder then throw .isFolder

/-- Nothing is found under a path without a name, or one that is too long. -/
def look (folder : Folder) (path : String) : Place :=
  if path = "" then
    { content := .error .noSuchFile, writable := .error .noSuchFile }
  else if Path.isTooLong path then
    { content := .error .tooLong, writable := .error .tooLong }
  else
    { content := folder.contentAt path
      writable := folder.writableAt path
      keeps := Path.location path ≠ .nullDevice }

def file? (folder : Folder) (path : String) : Option Bytes :=
  (folder.contentAt path).toOption

/-- Only files below the working folder are kept account of. -/
def save (folder : Folder) (path : String) (content : Bytes) : Folder :=
  let location := Path.location path
  if location.base = .above 0 then
    { files := (location.names, content) ::
        folder.files.filter fun (file, _) => file ≠ location.names }
  else
    folder

end Folder
end MessagePack
