import ShapeLedger.Json.Decode
import ShapeLedger.Json.Printer
import ShapeLedger.Json.Reader
import ShapeLedger.Registry

/-!
Entries of a registry as JSON text.
-/

namespace ShapeLedger

open Json (Source Plain Decoder)

namespace Digest

def decode : Decoder Digest := fun room v =>
  (Json.decodeText room v).bind fun s => (ofText? s).toOption

/-- The digest that a JSON text stands for. -/
def ofJsonText? (s : String) : Option Digest := Json.read s >>= decode Json.maxOpen

end Digest

namespace Timestamp

/-- The moment after so many seconds and nanoseconds, whole seconds of which
are carried over. -/
def ofParts? (seconds nanos : Nat) : Option Timestamp :=
  if h : seconds + nanos / nanosPerSecond < secondsBound then
    some ⟨seconds + nanos / nanosPerSecond, nanos % nanosPerSecond, h,
      Nat.mod_lt _ (by decide)⟩
  else none

def toJson (t : Timestamp) : Plain :=
  .object [("secs_since_epoch", .number t.seconds), ("nanos_since_epoch", .number t.nanos)]

/-- Both fields must be there, and no others. -/
def decode : Decoder Timestamp
  | 0, _ => none
  | room + 1, v => do
    match ← Json.closedFields? ["secs_since_epoch", "nanos_since_epoch"] v with
    | [seconds, nanos] =>
      let seconds ← Json.required (Json.decodeNatural UInt64.size) room seconds
      let nanos ← Json.required (Json.decodeNatural UInt32.size) room nanos
      ofParts? seconds nanos
    | _ => none

end Timestamp

namespace Entry

def toJson (e : Entry) : Plain :=
  .object [("type_name", .text e.typeName), ("version", .number e.version.toNat),
    ("hash", .text e.hash), ("digest", .text e.digest.text),
    ("recorded_at", e.recordedAt.toJson)]

/-- The text of the file of an entry. -/
def text (e : Entry) : String := e.toJson.pretty

def decode : Decoder Entry
  | 0, _ => none
  | room + 1, v => do
    match ← Json.recordFields? ["type_name", "version", "hash", "digest", "recorded_at"] v with
    | [typeName, version, hash, digest, recordedAt] =>
      let typeName ← Json.required Json.decodeText room typeName
      let version ← Json.required (Json.decodeNatural UInt32.size) room version
      let hash ← Json.required Json.decodeText room hash
      let digest ← Json.required Digest.decode room digest
      let recordedAt ← Json.required Timestamp.decode room recordedAt
      return { typeName, version := UInt32.ofNat version, hash, digest, recordedAt }
    | _ => none

def ofText? (s : String) : Option Entry := Json.read s >>= decode Json.maxOpen

end Entry

end ShapeLedger
