import ShapeLedger.FileTree
import ShapeLedger.FileTree.Route

/-!
Following routes in a tree of files, and changing the tree where they lead. A
change that is refused leaves the tree as it is, with one exception: directories
that were made on the way to one that cannot be made stay.
-/

namespace ShapeLedger.FileTree

/-- The location that parts lead to from the one whose names are `inner`, the
innermost first. Names may lead to nothing yet, but a part that names nothing
can be followed in a directory only. -/
def follow (t : FileTree) (inner : List String) : List String → Option Location
  | [] => some inner.reverse
  | part :: parts =>
    if Route.isName part then follow t (part :: inner) parts
    else if t.hasDirectory inner.reverse then
      follow t (if part = ".." then inner.tail else inner) parts
    else none

/-- What stands at the end of a route. -/
def find? (r : Route) (t : FileTree) : Option FileTree :=
  if r.isAllowed then (follow t [] r.parts).bind (at? · t) else none

/-- The location at which an entry stands, or would stand, whose route ends with
its name and perhaps with slashes. -/
def place? (r : Route) (t : FileTree) : Option Location :=
  if r.isAllowed then
    match r.parts.reverse.dropWhile (· = "") with
    | [] => none
    | name :: before =>
      if Route.isName name then (follow t [] before.reverse).map (· ++ [name]) else none
  else none

/-- Makes a directory in one that exists, unless it is there. -/
def makeEntry (r : Route) (t : FileTree) : Option FileTree :=
  if (t.find? r).any isDirectory then some t
  else
    (t.place? r).bind fun location =>
      t.alter (fun
        | none => some empty
        | some _ => none) location

/-- Makes directories one after the other, up to the first that cannot be made,
and says whether there was none such. -/
def makeEach : List Route → FileTree → FileTree × Bool
  | [], t => (t, true)
  | r :: rs, t =>
    match t.makeEntry r with
    | some t => makeEach rs t
    | none => (t, false)

/-- Makes the directory at the end of a route and those above it, as far as they
are missing, and says whether it is there now. -/
def makeDirectory (r : Route) (t : FileTree) : FileTree × Bool :=
  if r.isAllowed then makeEach (r.above ++ [r]) t else (t, false)

/-- Writes a whole file into a directory that exists. -/
def write (content : ByteArray) (r : Route) (t : FileTree) : Option FileTree :=
  if r.endsWithSlash then none
  else
    (t.place? r).bind fun location =>
      t.alter (fun
        | some (.directory _) => none
        | _ => some (.file content)) location

/-- Takes out what stands at the end of a route, with everything below it. -/
def remove (r : Route) (t : FileTree) : Option FileTree :=
  (t.find? r).bind fun _ => (t.place? r).bind fun location => t.removeAt location

/-- What is moved takes the place of nothing, a file that of a file, and a directory
that of an empty one. -/
def canReplace : FileTree → Option FileTree → Bool
  | _, none => true
  | .file _, some (.file _) => true
  | .directory _, some (.directory []) => true
  | _, some _ => false

/-- Moves what stands at the end of a route to that of another one. -/
def rename (source target : Route) (t : FileTree) : Option FileTree := do
  let u ← t.find? source
  let here ← t.place? source
  let there ← t.place? target
  if target.endsWithSlash && !u.isDirectory then none
  else if here = there then some t
  else if canReplace u (t.at? there) then
    (t.removeAt here).bind fun t => t.alter (fun _ => some u) there
  else none

/-- A change of a tree. -/
inductive Effect where
  | makeDirectory (route : Route)
  | write (route : Route) (content : ByteArray)

/-- The tree after a change, and whether the change has been made in full. -/
def perform : Effect → FileTree → FileTree × Bool
  | .makeDirectory r, t => t.makeDirectory r
  | .write r content, t =>
    match t.write content r with
    | some t => (t, true)
    | none => (t, false)

end ShapeLedger.FileTree
