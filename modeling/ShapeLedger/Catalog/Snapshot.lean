import ShapeLedger.Catalog
import ShapeLedger.Json.Decode
import ShapeLedger.Json.Printer
import ShapeLedger.Json.Reader

/-!
Catalogs as JSON text. A snapshot holds the definitions in ascending order of
their names, each with all its fields. A text is read into a catalog only if
no name is defined twice.
-/

namespace ShapeLedger

open Json (Source Plain Decoder)

namespace TypeRef

mutual

/-- A parameter is a number; a name is an object, with its arguments if it has
any. -/
def toJson : TypeRef → Plain
  | .param index => .number index.toNat
  | .named name [] => .object [("name", .text name)]
  | .named name (a :: as) =>
    .object [("name", .text name), ("arguments", .array (a.toJson :: toJsonAll as))]

def toJsonAll : List TypeRef → List Plain
  | [] => []
  | r :: rs => r.toJson :: toJsonAll rs

end

mutual

/-- The reference that a value stands for; unknown fields are passed over. -/
def ofJson? : Source → Option TypeRef
  | .number n => (Json.decodeNatural UInt64.size 0 (.number n)).map fun i => .param (UInt64.ofNat i)
  | .object fs => do
    let name ← (← Json.textKeys? fs >>= (Json.single? · "name"))
    let name ← Json.decodeText 0 name
    match ← argumentLists? fs with
    | [] => return .named name []
    | [arguments] => return .named name arguments
    | _ => none
  | _ => none

def ofJsonAll? : List Source → Option (List TypeRef)
  | [] => some []
  | v :: vs => do
    let r ← ofJson? v
    let rs ← ofJsonAll? vs
    return r :: rs

/-- The values of all fields that hold arguments. -/
def argumentLists? : List (Option String × Source) → Option (List (List TypeRef))
  | [] => some []
  | (some "arguments", .array vs) :: fs => do
    let rs ← ofJsonAll? vs
    let rest ← argumentLists? fs
    return rs :: rest
  | (some "arguments", _) :: _ => none
  | _ :: fs => argumentLists? fs

end

/-- A reference is kept whole before it is taken apart. -/
def decode : Decoder TypeRef := fun room v => if Json.sound room v then ofJson? v else none

/-- The reference that a JSON text stands for. -/
def ofText? (s : String) : Option TypeRef := Json.read s >>= decode Json.maxOpen

end TypeRef

namespace Member

def toJson (m : Member) : Plain :=
  .object [("name", .text m.name), ("value_type", m.valueType.toJson),
    ("opt_in", .bool m.optIn), ("public", .bool m.isPublic), ("readable", .bool m.isReadable)]

def decode : Decoder Member
  | 0, _ => none
  | room + 1, v => do
    match ← Json.recordFields? ["name", "value_type", "opt_in", "public", "readable"] v with
    | [name, valueType, optIn, isPublic, isReadable] =>
      let name ← Json.required Json.decodeText room name
      let valueType ← Json.required TypeRef.decode room valueType
      let optIn ← Json.optional false Json.decodeBool room optIn
      let isPublic ← Json.optional true Json.decodeBool room isPublic
      let isReadable ← Json.optional true Json.decodeBool room isReadable
      return { name, valueType, optIn, isPublic, isReadable }
    | _ => none

end Member

namespace Definition

def toJson (d : Definition) : Plain :=
  .object [("name", .text d.name), ("generic_arity", .number d.genericArity.toNat),
    ("contracts", .array (d.contracts.map .text)),
    ("members", .array (d.members.map Member.toJson))]

def decode : Decoder Definition
  | 0, _ => none
  | room + 1, v => do
    match ← Json.recordFields? ["name", "generic_arity", "contracts", "members"] v with
    | [name, genericArity, contracts, members] =>
      let name ← Json.required Json.decodeText room name
      let genericArity ← Json.optional 0 (Json.decodeNatural UInt64.size) room genericArity
      let contracts ← Json.optional [] (Json.decodeList Json.decodeText) room contracts
      let members ← Json.optional [] (Json.decodeList Member.decode) room members
      return { name, genericArity := UInt64.ofNat genericArity, contracts, members }
    | _ => none

/-- The definitions that a snapshot lists, none if it has no list. -/
def decodeAll : Decoder (List Definition)
  | 0, _ => none
  | room + 1, v => do
    match ← Json.recordFields? ["types"] v with
    | [types] => Json.optional [] (Json.decodeList decode) room types
    | _ => none

end Definition

/-- Why a text is no snapshot of a catalog. -/
inductive SnapshotError where
  /-- The bytes are not there or are no UTF-8 text. -/
  | unreadable
  | malformed
  | duplicateType (e : DuplicateType)
deriving DecidableEq

namespace Catalog

def toJson (c : Catalog) : Plain := .object [("types", .array (c.items.map Definition.toJson))]

/-- The snapshot of a catalog. -/
def snapshot (c : Catalog) : String := c.toJson.pretty

def ofSnapshot (s : String) : Except SnapshotError Catalog :=
  match Json.read s >>= Definition.decodeAll Json.maxOpen with
  | none => .error .malformed
  | some ds => (ofDefinitions ds).mapError .duplicateType

/-- Reads a snapshot from the content of a file, if there is a file. -/
def ofFile (content : Option ByteArray) : Except SnapshotError Catalog :=
  match content >>= String.fromUTF8? with
  | none => .error .unreadable
  | some s => ofSnapshot s

end Catalog

end ShapeLedger
