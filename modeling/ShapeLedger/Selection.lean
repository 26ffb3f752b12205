import ShapeLedger.Catalog
import ShapeLedger.Config

/-!
Which members of a definition belong to its shape. If one unreserved member
is opted in, the opted-in members do; otherwise all that are public and
readable do. The reserved member never does.
-/

namespace ShapeLedger

inductive SelectionMode where
  | explicit
  | implicit
deriving DecidableEq

def SelectionMode.admits : SelectionMode → Member → Bool
  | .explicit, m => m.optIn
  | .implicit, m => m.isPublic && m.isReadable

namespace Definition

/-- The members that are not reserved, in declared order. -/
def unreserved (d : Definition) (cfg : Config) : List Member :=
  d.members.filter fun m => !cfg.isReserved m.name

def selectionMode (d : Definition) (cfg : Config) : SelectionMode :=
  if (d.unreserved cfg).any Member.optIn then .explicit else .implicit

/-- The members of the shape, in declared order. -/
def selected (d : Definition) (cfg : Config) : List Member :=
  (d.unreserved cfg).filter (d.selectionMode cfg).admits

def isString (d : Definition) (cfg : Config) : Bool := d.name = cfg.stringType

/-- Whether the definition or one of its contracts counts as a collection. -/
def isEnumerable (d : Definition) (cfg : Config) : Bool :=
  (d.name :: d.contracts).any fun n => n ∈ cfg.collectionContracts

end Definition

end ShapeLedger
