import ShapeLedger.Digest
import ShapeLedger.Fingerprint
import ShapeLedger.Shape.Diff
import ShapeLedger.Text.Blank

/-!
Histories of fingerprints. Each type has a list of versions, numbered from
zero. Recording the latest fingerprint again changes nothing; any other one,
also an older one, becomes the next version.
-/

namespace ShapeLedger

/-- Seconds are counted in sixty-three bits. -/
def Timestamp.secondsBound : Nat := 1 <<< 63

def Timestamp.nanosPerSecond : Nat := 1000000000

/-- A moment, as the time since the beginning of 1970. -/
structure Timestamp where
  seconds : Nat
  nanos : Nat
  seconds_lt : seconds < Timestamp.secondsBound := by decide
  nanos_lt : nanos < Timestamp.nanosPerSecond := by decide
deriving DecidableEq

/-- One recorded version of a type. -/
structure Entry where
  typeName : String
  version : UInt32
  /-- The fingerprint. -/
  hash : String
  digest : Digest
  recordedAt : Timestamp
deriving DecidableEq

/-- The versions of a type, the oldest first. -/
structure History where
  typeName : String
  entries : List Entry
deriving DecidableEq

/-- What a fingerprint means for the stored data of its type. -/
inductive Verdict where
  | unrecorded
  | upToDate (version : UInt32)
  | migrationRequired (recorded next : UInt32) (changes : List Change)
deriving DecidableEq

def Verdict.requiresMigration : Verdict → Bool
  | .migrationRequired _ _ _ => true
  | _ => false

/-- Why a registry refuses a request. -/
inductive RegistryError where
  | emptyTypeName
  | notFound (name : String)
  | shape (e : ShapeError)
deriving DecidableEq

def RegistryError.message : RegistryError → String
  | .emptyTypeName => "type name is empty"
  | .notFound name => "no fingerprint recorded for " ++ name
  | .shape e => e.message

abbrev Registry := NameTable History.typeName

namespace Registry

/-- The versions of a type, the oldest first; none if it was never recorded. -/
def entries (r : Registry) (name : String) : List Entry :=
  match r.find? name with
  | some h => h.entries
  | none => []

def latest? (r : Registry) (name : String) : Option Entry := (r.entries name).getLast?

/-- The entry at the position of that version. -/
def version? (r : Registry) (name : String) (version : UInt32) : Option Entry :=
  (r.entries name)[version.toNat]?

def latest (r : Registry) (name : String) : Except RegistryError Entry :=
  match r.latest? name with
  | some e => .ok e
  | none => .error (.notFound name)

def versions (r : Registry) (name : String) : List UInt32 := (r.entries name).map Entry.version

/-- All entries, by type name and then by version. -/
def allEntries (r : Registry) : List Entry := r.items.flatMap History.entries

/-- Adds an entry at the end of the history of its type. -/
def append (r : Registry) (e : Entry) : Registry :=
  r.insert ⟨e.typeName, r.entries e.typeName ++ [e]⟩

/-- Records a fingerprint and returns the version that the type then has. -/
def record (r : Registry) (now : Timestamp) (name hash : String) :
    Except RegistryError (Registry × UInt32) :=
  if Text.blank name then .error .emptyTypeName
  else
    let digest := Digest.ofText hash
    match r.latest? name with
    | none => .ok (r.append ⟨name, 0, hash, digest, now⟩, 0)
    | some e =>
      if e.digest = digest ∧ e.hash = hash then .ok (r, e.version)
      else .ok (r.append ⟨name, e.version + 1, hash, digest, now⟩, e.version + 1)

/-- Compares a fingerprint with the latest recorded one. -/
def check (r : Registry) (name hash : String) : Verdict :=
  match r.latest? name with
  | none => .unrecorded
  | some e =>
    if e.hash = hash then .upToDate e.version
    else .migrationRequired e.version (e.version + 1) (Shape.diff e.hash hash)

/-- Checks the present fingerprint of a type of a catalog. -/
def checkType (r : Registry) (c : Catalog) (cfg : Config) (name : String) :
    Except RegistryError Verdict :=
  match c.fingerprintOf cfg name with
  | .error e => .error (.shape e)
  | .ok hash => .ok (r.check name hash)

/-- Records the present fingerprint of a type of a catalog. -/
def recordType (r : Registry) (now : Timestamp) (c : Catalog) (cfg : Config) (name : String) :
    Except RegistryError (Registry × UInt32) :=
  match c.fingerprintOf cfg name with
  | .error e => .error (.shape e)
  | .ok hash => r.record now name hash

end Registry

end ShapeLedger
