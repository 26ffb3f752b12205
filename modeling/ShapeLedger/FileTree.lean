/-!
Trees of files and directories, seen through locations: the names on the way
from the top of a tree to a file or directory in it.
-/

namespace ShapeLedger

/-- A file or a directory. The entries of a directory are in no particular
order, and no change gives one name to two of them. -/
inductive FileTree where
  | file (content : ByteArray)
  | directory (entries : List (String × FileTree))

namespace FileTree

/-- The names on the way from the top of a tree. -/
abbrev Location := List String

/-- The directory without entries. -/
def empty : FileTree := .directory []

def isDirectory : FileTree → Bool
  | .file _ => false
  | .directory _ => true

/-- What stands at a location. -/
def at? : Location → FileTree → Option FileTree
  | [], t => some t
  | _ :: _, .file _ => none
  | name :: rest, .directory entries => (entries.lookup name).bind (at? rest)

def hasDirectory (location : Location) (t : FileTree) : Bool :=
  (t.at? location).any isDirectory

/-- Puts an entry in the place of the one of its name, or else at the end. -/
def put (name : String) (t : FileTree) : List (String × FileTree) → List (String × FileTree)
  | [] => [(name, t)]
  | (n, u) :: entries => if n = name then (n, t) :: entries else (n, u) :: put name t entries

/-- The length of the longest name that an entry can get, in bytes. -/
def maxNameLength : Nat := 255

/-- An entry can get a name that is not too long. -/
def allowsName (name : String) : Bool := name.utf8ByteSize ≤ maxNameLength

/-- Replaces what stands at a location, below directories that exist. `change` is
given what stands there, if anything does. -/
def alter (change : Option FileTree → Option FileTree) : Location → FileTree → Option FileTree
  | [], t => change (some t)
  | _ :: _, .file _ => none
  | [name], .directory entries =>
    match entries.lookup name with
    | some u => (change (some u)).map fun v => .directory (put name v entries)
    | none =>
      if allowsName name then (change none).map fun v => .directory (put name v entries) else none
  | name :: next :: rest, .directory entries =>
    match entries.lookup name with
    | some u => (alter change (next :: rest) u).map fun v => .directory (put name v entries)
    | none => none

/-- Takes out what stands at a location, with everything below it. -/
def removeAt : Location → FileTree → Option FileTree
  | [], _ => none
  | _ :: _, .file _ => none
  | [name], .directory entries =>
    if (entries.lookup name).isSome then
      some (.directory (entries.filter fun e => e.1 ≠ name))
    else none
  | name :: next :: rest, .directory entries =>
    match entries.lookup name with
    | some u => (removeAt (next :: rest) u).map fun v => .directory (put name v entries)
    | none => none

mutual

/-- The locations of all files and directories below a tree, as they are shown;
those of directories end with a slash. -/
def listing : FileTree → List String
  | .file _ => []
  | .directory entries => listings entries

def listings : List (String × FileTree) → List String
  | [] => []
  | (name, .file _) :: entries => name :: listings entries
  | (name, .directory below) :: entries =>
    ((name ++ "/") :: (listings below).map (name ++ "/" ++ ·)) ++ listings entries

end

end FileTree

end ShapeLedger
