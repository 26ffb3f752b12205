import ShapeLedger.Catalog.TypeRef
import ShapeLedger.NameTable
import ShapeLedger.Text.Quoted

/-!
Type definitions and catalogs. A catalog files definitions under their names
and holds at most one of each name.
-/

namespace ShapeLedger

/-- A member of a type and how it may be reached. -/
structure Member where
  name : String
  valueType : TypeRef
  /-- Marked for the stored shape by its author. -/
  optIn : Bool := false
  isPublic : Bool := true
  isReadable : Bool := true
deriving DecidableEq

/-- A type: its name, the number of its generic parameters, the contracts it
fulfils and its members in declared order. -/
structure Definition where
  name : String
  genericArity : UInt64 := 0
  contracts : List String := []
  members : List Member := []
deriving DecidableEq

/-- The first member of that name. -/
def Definition.member? (d : Definition) (name : String) : Option Member :=
  d.members.find? (fun m => m.name = name)

abbrev Catalog := NameTable Definition.name

/-- A name is given to two definitions. -/
structure DuplicateType where
  name : String
deriving DecidableEq

def DuplicateType.message (e : DuplicateType) : String :=
  "type " ++ Text.quoted e.name ++ " is defined more than once"

namespace Catalog

/-- The first name in `names` that is in `seen` or stands earlier in `names`. -/
def firstRepeated? (seen : List String) : List String → Option String
  | [] => none
  | name :: rest => if name ∈ seen then some name else firstRepeated? (name :: seen) rest

/-- A catalog of the given definitions, or the first name that is given to a
second definition. -/
def ofDefinitions (ds : List Definition) : Except DuplicateType Catalog :=
  match firstRepeated? [] (ds.map Definition.name) with
  | some name => .error ⟨name⟩
  | none => .ok (NameTable.ofList Definition.name ds)

end Catalog

end ShapeLedger
