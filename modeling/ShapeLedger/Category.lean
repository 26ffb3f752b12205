import ShapeLedger.Descriptor
import ShapeLedger.Selection

/-!
How the walk treats a constructed type: a leaf is only named, a collection is
described by its arguments, a composite by its selected members.
-/

namespace ShapeLedger

inductive Category where
  | leaf
  | collection
  | composite (mode : SelectionMode) (members : List Member)
deriving DecidableEq

/-- The string type is a leaf, and so is a type without selected members that
is no collection; a type is a collection only if it has arguments. -/
def Descriptor.category (d : Descriptor) (cfg : Config) : Category :=
  match d.definition.isString cfg, !d.arguments.isEmpty && d.definition.isEnumerable cfg with
  | true, _ => .leaf
  | false, true => .collection
  | false, false =>
    match d.definition.selected cfg with
    | [] => .leaf
    | m :: ms => .composite (d.definition.selectionMode cfg) (m :: ms)

end ShapeLedger
