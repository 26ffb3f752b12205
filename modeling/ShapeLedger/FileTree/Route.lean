/-!
Routes: the texts that name a place in a tree of files, with a slash between
each two parts. Besides names, a route may have parts that name nothing: an
empty part and a single dot stay where they are, and two dots lead up.
-/

namespace ShapeLedger.FileTree

/-- A route, by its parts between the slashes. -/
structure Route where
  parts : List String
deriving DecidableEq

namespace Route

def ofText (text : String) : Route := ⟨text.splitOn "/"⟩

def text (r : Route) : String := "/".intercalate r.parts

/-- A part that stands for an entry of a directory. -/
def isName (part : String) : Bool := part ≠ "" && part ≠ "." && part ≠ ".."

/-- A part that leads from one directory to another. -/
def isStep (part : String) : Bool := part ≠ "" && part ≠ "."

/-- The route ends with a slash, as only that of a directory may. -/
def endsWithSlash (r : Route) : Bool := r.parts.getLast? = some ""

/-- The route to an entry of the directory at a route. A slash at the end of the
latter stands for the one between the two. -/
def join (r : Route) (name : String) : Route :=
  ⟨(if r.endsWithSlash then r.parts.dropLast else r.parts) ++ [name]⟩

/-- The beginnings of a list of parts that end with a step, the shortest first. -/
def beginnings : List String → List (List String)
  | [] => []
  | part :: parts =>
    let longer := (beginnings parts).map (part :: ·)
    if isStep part then [part] :: longer else longer

/-- The routes of the directories above a route, the topmost first. -/
def above (r : Route) : List Route := (beginnings r.parts).dropLast.map Route.mk

/-- The route of the directory that holds the entry at a route. -/
def parent (r : Route) : Route := r.above.getLastD ⟨[]⟩

/-- The length of the longest route that can be followed, in bytes. -/
def maxLength : Nat := 4095

/-- A route can be followed if it is not too long and holds no zero character. -/
def isAllowed (r : Route) : Bool :=
  r.text.utf8ByteSize ≤ maxLength && r.parts.all fun part => part.toList.all (· ≠ '\x00')

end Route

end ShapeLedger.FileTree
