import ShapeLedger.FileTree.Change
import ShapeLedger.Ledger.Failure
import ShapeLedger.Ledger.Name
import ShapeLedger.Ledger.Record

/-!
Registries on disk. Below the root of a ledger each type has a directory with
a file for each of its versions. Saving writes every entry, one after the
other, and stops at the first that cannot be written. Loading passes over what
is not named like a part of a ledger and refuses a type whose files disagree
with their places or do not form a whole history.
-/

namespace ShapeLedger

open FileTree (Route Effect)

namespace Ledger

/-- The changes that save a type: its directory, then its versions. -/
def historyEffects (root : Route) (h : History) : List Effect :=
  let directory := root.join (directoryName h.typeName)
  .makeDirectory directory ::
    h.entries.map fun e => .write (directory.join (fileName e.version)) e.text.toByteArray

/-- The changes that save types in the given order. -/
def saveEffects (root : Route) (hs : List History) : List Effect :=
  hs.flatMap (historyEffects root)

def Failure.ofEffect : Effect → Failure
  | .makeDirectory r => .disk .create r
  | .write r _ => .disk .write r

/-- Performs changes up to the first that is not possible. -/
def performAll : List Effect → FileTree → FileTree × Except Failure Unit
  | [], t => (t, .ok ())
  | e :: es, t =>
    match t.perform e with
    | (t, true) => performAll es t
    | (t, false) => (t, .error (.ofEffect e))

/-- Makes the root of a ledger if it is missing. -/
def create (root : Route) (t : FileTree) : FileTree × Except Failure Unit :=
  performAll [.makeDirectory root] t

/-- Saves a registry, one type after the other. -/
def save (root : Route) (r : Registry) (t : FileTree) : FileTree × Except Failure Unit :=
  performAll (saveEffects root r.items) t

/-- The text of a file. A directory has none, nor has a file that is no UTF-8. -/
def textOf? : FileTree → Option String
  | .file content => String.fromUTF8? content
  | .directory _ => none

/-- The entry in the file at a route in a type's directory, which must name that
type and hold the version of the file's name. -/
def readEntry (r : Route) (typeName : String) (version : UInt32) (file : FileTree) :
    Except Failure Entry :=
  match if r.isAllowed then textOf? file else none with
  | none => .error (.disk .read r)
  | some s =>
    match Entry.ofText? s with
    | none => .error (.malformed r)
    | some e =>
      if e.typeName ≠ typeName then .error (.corrupt r (.misfiled e.typeName typeName))
      else if e.version ≠ version then .error (.corrupt r (.versionMismatch e.version))
      else .ok e

/-- The entries in the files of a type's directory, in the order of the files. -/
def readEntries (directory : Route) (typeName : String) :
    List (String × FileTree) → Except Failure (List Entry)
  | [] => .ok []
  | (name, file) :: files =>
    match version? name with
    | none => readEntries directory typeName files
    | some version =>
      match readEntry (directory.join name) typeName version file with
      | .error e => .error e
      | .ok entry => (readEntries directory typeName files).map (entry :: ·)

/-- The first number, counted from `expected`, that is not the version of the
entry in its place. -/
def firstMissing? (expected : Nat) : List Entry → Option Nat
  | [] => none
  | e :: es => if e.version.toNat = expected then firstMissing? (expected + 1) es else some expected

/-- The history in a type's directory, in the order of the versions. -/
def readHistory (directory : Route) (typeName : String) (files : List (String × FileTree)) :
    Except Failure (List Entry) :=
  match readEntries directory typeName files with
  | .error e => .error e
  | .ok entries =>
    let sorted := entries.mergeSort fun a b => decide (a.version ≤ b.version)
    match firstMissing? 0 sorted with
    | some version => .error (.corrupt directory (.versionMissing version))
    | none => .ok sorted

/-- The type that an entry of the root belongs to, with the files of its directory.
What is no directory, or has too long a route, belongs to none. -/
def typeDirectory? (root : Route) :
    String × FileTree → Option (String × List (String × FileTree))
  | (_, .file _) => none
  | (name, .directory files) =>
    if (root.join name).isAllowed then (typeName? name).map (·, files) else none

/-- Adds the histories of the directories that are named for types. -/
def loadInto (root : Route) (r : Registry) : List (String × FileTree) → Except Failure Registry
  | [] => .ok r
  | entry :: entries =>
    match typeDirectory? root entry with
    | none => loadInto root r entries
    | some (typeName, files) =>
      match readHistory (root.join entry.1) typeName files with
      | .error e => .error e
      | .ok [] => loadInto root r entries
      | .ok (e :: es) => loadInto root (r.insert ⟨typeName, e :: es⟩) entries

/-- The registry that is saved below `root`. A root that does not exist holds
the empty one. -/
def load (root : Route) (t : FileTree) : Except Failure Registry :=
  match t.find? root with
  | none => .ok NameTable.empty
  | some (.file _) => .error (.disk .read root)
  | some (.directory entries) => loadInto root NameTable.empty entries

end Ledger

end ShapeLedger
