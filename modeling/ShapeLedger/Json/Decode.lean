import ShapeLedger.Json.Range

/-!
Taking records apart. A record is an object, whose unknown fields are passed
over unread, or an array of its fields in order. A decoder is told how many
more arrays and objects it may open.
-/

namespace ShapeLedger.Json

/-- How many arrays and objects may be open at once in what is decoded. -/
def maxOpen : Nat := 127

/-- Reads a value with room for a number of nested arrays and objects. -/
abbrev Decoder (α : Type) := Nat → Source → Option α

def decodeText : Decoder String
  | _, .text t => t
  | _, _ => none

def decodeBool : Decoder Bool
  | _, .bool b => some b
  | _, _ => none

/-- A natural number below `bound`, written with digits alone. -/
def decodeNatural (bound : Nat) : Decoder Nat
  | _, .number n => n.natural?.filter fun m => m < bound
  | _, _ => none

def decodeList {α : Type} (decode : Decoder α) : Decoder (List α)
  | room + 1, .array vs => vs.mapM (decode room)
  | _, _ => none

/-- The only field of that key, or none; a repeated key is an error. -/
def single? (fields : List (String × Source)) (key : String) : Option (Option Source) :=
  match fields.filter fun f => f.1 = key with
  | [] => some none
  | [f] => some (some f.2)
  | _ => none

/-- The fields of an object, if every key is a text. -/
def textKeys? (fields : List (Option String × Source)) : Option (List (String × Source)) :=
  fields.mapM fun f => f.1.map (·, f.2)

/-- The values of the fields `names` of a record, with `none` for a field that
is left out. -/
def recordFields? (names : List String) : Source → Option (List (Option Source))
  | .array vs =>
    if vs.length ≤ names.length then
      some (vs.map some ++ List.replicate (names.length - vs.length) none)
    else none
  | .object fs => do
    let fs ← textKeys? fs
    names.mapM (single? fs)
  | _ => none

/-- As `recordFields?`, but an unknown field is an error. -/
def closedFields? (names : List String) (v : Source) : Option (List (Option Source)) :=
  match v with
  | .object fs =>
    if fs.all fun f => f.1.any (· ∈ names) then recordFields? names v else none
  | _ => recordFields? names v

def required {α : Type} (decode : Decoder α) (room : Nat) : Option Source → Option α
  | some v => decode room v
  | none => none

def optional {α : Type} (default : α) (decode : Decoder α) (room : Nat) :
    Option Source → Option α
  | some v => decode room v
  | none => some default

mutual

/-- Whether a value that is kept whole has proper texts and numbers in range
throughout, and fits into the room. -/
def sound (room : Nat) : Source → Bool
  | .null => true
  | .bool _ => true
  | .number n => n.inRange
  | .text t => t.isSome
  | .array vs => 0 < room && soundItems (room - 1) vs
  | .object fs => 0 < room && soundFields (room - 1) fs

def soundItems (room : Nat) : List Source → Bool
  | [] => true
  | v :: vs => sound room v && soundItems room vs

def soundFields (room : Nat) : List (Option String × Source) → Bool
  | [] => true
  | (key, v) :: fs => key.isSome && sound room v && soundFields room fs

end

end ShapeLedger.Json
