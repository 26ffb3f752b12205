import ShapeLedger.NameTable
import ShapeLedger.Shape.Segments

/-!
The difference of two fingerprints, member by member. Of several members of
one name the last counts. There is at most one change for each name, and the
changes are in ascending order of the names.
-/

namespace ShapeLedger

inductive Change where
  | added (name typeText : String)
  | removed (name typeText : String)
  | retyped (name oldType newType : String)
deriving DecidableEq

namespace Change

def name : Change → String
  | .added name _ => name
  | .removed name _ => name
  | .retyped name _ _ => name

def text : Change → String
  | .added name typeText => "added member " ++ name ++ ": " ++ typeText
  | .removed name typeText => "removed member " ++ name ++ ": " ++ typeText
  | .retyped name oldType newType =>
    "changed type of " ++ name ++ ": " ++ oldType ++ " -> " ++ newType

end Change

namespace Shape

abbrev MemberTable := NameTable MemberShape.name

def memberTable (text : String) : MemberTable :=
  NameTable.ofList MemberShape.name (members text)

/-- The change of the member `name` between two tables. -/
def changeOf? (old new : MemberTable) (name : String) : Option Change :=
  match old.find? name, new.find? name with
  | none, none => none
  | none, some m => some (.added name m.typeText)
  | some m, none => some (.removed name m.typeText)
  | some m, some m' =>
    if m.typeText = m'.typeText then none else some (.retyped name m.typeText m'.typeText)

/-- The changes between two tables, in ascending order of the names. -/
def changes (old new : MemberTable) : List Change :=
  (new.items.foldl NameTable.insert old).names.filterMap (changeOf? old new)

/-- The changes from one fingerprint to another. -/
def diff (old new : String) : List Change := changes (memberTable old) (memberTable new)

end Shape

end ShapeLedger
