import ShapeLedger.FileTree.Route
import ShapeLedger.Text.Quoted

/-!
What can go wrong with a ledger on disk, and the messages that say so.
-/

namespace ShapeLedger.Ledger

open FileTree (Route)

inductive Action where
  | create
  | read
  | write
deriving DecidableEq

def Action.text : Action → String
  | .create => "create"
  | .read => "read"
  | .write => "write"

/-- What is wrong with the files of a ledger. -/
inductive Defect where
  | misfiled (found expected : String)
  | versionMismatch (found : UInt32)
  | versionMissing (version : Nat)
deriving DecidableEq

def Defect.text : Defect → String
  | .misfiled found expected =>
    "entry for " ++ Text.quoted found ++ " stored under " ++ Text.quoted expected
  | .versionMismatch found => "file holds version " ++ found.toNat.repr
  | .versionMissing version => "version " ++ version.repr ++ " is missing"

/-- Why a ledger cannot be opened, saved or loaded, and where. -/
inductive Failure where
  | disk (action : Action) (route : Route)
  | malformed (route : Route)
  | corrupt (route : Route) (defect : Defect)
deriving DecidableEq

def Failure.message : Failure → String
  | .disk action r => "I/O error: failed to " ++ action.text ++ " " ++ r.text
  | .malformed r => "serialization error: " ++ r.text
  | .corrupt r defect => "inconsistent ledger at " ++ r.text ++ ": " ++ defect.text

end ShapeLedger.Ledger
