import MessagePack.Bytes

/-!
Paths, and the locations they name.

A path is followed name by name from the working folder, or from the root if it starts with a
slash. A dot stays in a folder and two dots lead to the folder above.
-/

namespace MessagePack

inductive Base where
  /-- So many folders above the working folder. -/
  | above (levels : Nat)
  | root
  deriving DecidableEq

structure Location where
  base : Base
  names : List String := []
  deriving DecidableEq

namespace Location

def workingFolder : Location :=
  { base := .above 0 }

def root : Location :=
  { base := .root }

/-- The root is above itself. -/
def parent (location : Location) : Location :=
  match location.names, location.base with
  | [], .above levels => { base := .above (levels + 1) }
  | [], .root => location
  | _ :: _, base => { base, names := location.names.dropLast }

def step (location : Location) (name : String) : Location :=
  if name = "." then location
  else if name = ".." then location.parent
  else { location with names := location.names ++ [name] }

end Location

namespace Path

/-- The longest path, and the longest name along one, in bytes. -/
def maxLength : Nat := 4095

def maxName : Nat := 255

def isTooLong (path : String) : Bool :=
  maxLength < path.utf8ByteSize

def names (path : String) : List String :=
  (path.splitOn "/").filter (· ≠ "")

def start (path : String) : Location :=
  if path.startsWith "/" then .root else .workingFolder

def endsInSlash (path : String) : Bool :=
  path.endsWith "/"

def location (path : String) : Location :=
  (names path).foldl Location.step (start path)

def same (left right : String) : Bool :=
  location left = location right

end Path
end MessagePack
