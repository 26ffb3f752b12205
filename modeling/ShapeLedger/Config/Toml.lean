import ShapeLedger.Config
import ShapeLedger.Toml.Reader

/-!
Settings from a TOML document. Each setting is a key at the top; a key that is
missing leaves the default, and all other keys and tables are passed over.
-/

namespace ShapeLedger

/-- Why a document gives no settings. -/
inductive ConfigReadError where
  /-- The bytes are not there or are no UTF-8 text. -/
  | unreadable
  | malformed
  | invalid (e : ConfigError)
deriving DecidableEq

namespace Config

open Toml (Entries Node)

def textOf? : Node → Option String
  | .text s => some s
  | _ => none

def textsOf? : Node → Option (List String)
  | .array vs => vs.mapM textOf?
  | _ => none

def naturalOf? : Node → Option Nat
  | .integer n => if 0 ≤ n then some n.toNat else none
  | _ => none

/-- The value of a key, or the default if the key is missing; a value of
another kind is an error. -/
def setting? {α : Type} (t : Entries) (key : String) (ofNode? : Node → Option α)
    (default : α) : Option α :=
  match t.find? key with
  | none => some default
  | some v => ofNode? v

def ofEntries? (t : Entries) : Option Config := do
  let cfg : Config := {}
  let reservedMember ← setting? t "reserved_member" textOf? cfg.reservedMember
  let stringType ← setting? t "string_type" textOf? cfg.stringType
  let collectionContracts ←
    setting? t "collection_contracts" textsOf? cfg.collectionContracts
  let maxGenericNesting ←
    setting? t "max_generic_nesting" naturalOf? cfg.maxGenericNesting
  return { reservedMember, stringType, collectionContracts, maxGenericNesting }

def ofToml (s : String) : Except ConfigReadError Config :=
  match (Toml.read s).bind ofEntries? with
  | none => .error .malformed
  | some cfg => cfg.checked.mapError .invalid

/-- Reads settings from the content of a file, if there is a file. -/
def ofFile (content : Option ByteArray) : Except ConfigReadError Config :=
  match content.bind String.fromUTF8? with
  | none => .error .unreadable
  | some s => ofToml s

end Config

end ShapeLedger
