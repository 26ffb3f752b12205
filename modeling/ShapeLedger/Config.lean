import ShapeLedger.Text.Blank

/-!
Settings of the fingerprint walk. Any settings can be used; those that come
from a user are checked first.
-/

namespace ShapeLedger

structure Config where
  /-- Members of this name never belong to a shape. -/
  reservedMember : String := "Version"
  /-- The type that is never looked into. -/
  stringType : String := "System.String"
  /-- A generic type with one of these names or contracts is a collection. -/
  collectionContracts : List String := [
    "System.Collections.IEnumerable",
    "System.Collections.Generic.IEnumerable",
    "System.Collections.Generic.ICollection",
    "System.Collections.Generic.IList",
    "System.Collections.Generic.IDictionary",
    "System.Collections.Generic.IReadOnlyCollection",
    "System.Collections.Generic.IReadOnlyList",
    "System.Collections.Generic.IReadOnlyDictionary"]
  /-- How often one definition may be open along one path. -/
  maxGenericNesting : Nat := 64
deriving DecidableEq, Inhabited

/-- What is wrong with settings. -/
inductive ConfigError where
  | reservedMemberBlank
  | stringTypeBlank
  | nestingZero
deriving DecidableEq

def ConfigError.message : ConfigError → String
  | .reservedMemberBlank => "Invalid configuration: reserved_member must not be empty"
  | .stringTypeBlank => "Invalid configuration: string_type must not be empty"
  | .nestingZero => "Invalid configuration: max_generic_nesting must be at least 1"

namespace Config

/-- The first fault of the settings, in the order of the fields. -/
def fault? (cfg : Config) : Option ConfigError :=
  if Text.blank cfg.reservedMember then some .reservedMemberBlank
  else if Text.blank cfg.stringType then some .stringTypeBlank
  else if cfg.maxGenericNesting = 0 then some .nestingZero
  else none

/-- The settings themselves if they have no fault. -/
def checked (cfg : Config) : Except ConfigError Config :=
  match cfg.fault? with
  | some e => .error e
  | none => .ok cfg

def withContract (cfg : Config) (name : String) : Config :=
  { cfg with collectionContracts := cfg.collectionContracts ++ [name] }

def isReserved (cfg : Config) (name : String) : Bool := name = cfg.reservedMember

end Config

end ShapeLedger
