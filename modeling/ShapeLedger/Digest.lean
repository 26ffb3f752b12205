import ShapeLedger.Digest.Md5
import ShapeLedger.Text.Hex
import ShapeLedger.Text.Quoted

/-!
Digests of fingerprints: sixteen bytes, written as thirty-two hexadecimal
digits in lower case and read in either case. Digests are ordered by their
bytes.
-/

namespace ShapeLedger

structure Digest where
  bytes : List UInt8
  length_bytes : bytes.length = 16
deriving DecidableEq

/-- Why a text is no digest. -/
inductive DigestError where
  /-- The text is not thirty-two bytes long. -/
  | invalidLength (found : Nat)
  /-- The text has the right length and a byte that is no digit, given as the
  character of that number. -/
  | invalidHex (character : Char)
deriving DecidableEq

def DigestError.message : DigestError → String
  | .invalidLength found => "expected 32 hex characters, found " ++ found.repr
  | .invalidHex c => "invalid hex character " ++ Text.quoted c.toString

namespace Digest

/-- The MD5 digest of a text's UTF-8 bytes. -/
def ofText (text : String) : Digest :=
  let state := Md5.run text.toByteArray.data.toList
  ⟨state.bytes, state.length_bytes⟩

def ofBytes? (bytes : List UInt8) : Option Digest :=
  if h : bytes.length = 16 then some ⟨bytes, h⟩ else none

def text (d : Digest) : String := String.ofList (Text.Hex.encode d.bytes)

-- The published digest of the empty message.
example : (ofText "").text = "d41d8cd98f00b204e9800998ecf8427e" := by decide +kernel

/-- The first byte of a character's UTF-8 form, as a character of its own. -/
def leadByte (c : Char) : Char :=
  Char.ofNat (((String.utf8EncodeChar c).headD 0).toNat)

/-- Why `s` is refused: for its length unless that is thirty-two bytes, else
for the first character that is no digit. -/
def fault (s : String) : DigestError :=
  match s.toList.find? fun c => (Text.Hex.value? c).isNone with
  | some c =>
    if s.utf8ByteSize = 32 then .invalidHex (leadByte c) else .invalidLength s.utf8ByteSize
  | none => .invalidLength s.utf8ByteSize

/-- Reads thirty-two hexadecimal digits of either case. -/
def ofText? (s : String) : Except DigestError Digest :=
  match (Text.Hex.decode? s.toList).bind ofBytes? with
  | some d => .ok d
  | none => .error (fault s)

/-- The order of digests is the order of their bytes. -/
instance : LT Digest := ⟨fun d e => d.bytes < e.bytes⟩

instance : LE Digest := ⟨fun d e => d.bytes ≤ e.bytes⟩

instance (d e : Digest) : Decidable (d < e) := inferInstanceAs (Decidable (d.bytes < e.bytes))

instance (d e : Digest) : Decidable (d ≤ e) := inferInstanceAs (Decidable (d.bytes ≤ e.bytes))

end Digest

end ShapeLedger
