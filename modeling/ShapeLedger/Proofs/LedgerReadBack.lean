import ShapeLedger.Proofs.DigestText
import ShapeLedger.Proofs.JsonReadBack
import ShapeLedger.Proofs.LedgerNames

/-!
What a ledger writes into a file is read back. The text of a file gives back the
entry, with its digest and its time stamp.
-/

namespace ShapeLedger

namespace Json

theorem decodeNatural_ofNat {n bound : Nat} (h : n < bound) (room : Nat) :
    decodeNatural bound room (.number (Number.ofNat n)) = some n := by
  rw [decodeNatural, Number.natural?_ofNat, Option.filter_some, if_pos (decide_eq_true h)]

end Json

/-- No second has to be carried over. -/
theorem Timestamp.ofParts?_parts (t : Timestamp) : ofParts? t.seconds t.nanos = some t := by
  have hcarry : t.nanos / nanosPerSecond = 0 := Nat.div_eq_of_lt t.nanos_lt
  have hrest : t.nanos % nanosPerSecond = t.nanos := Nat.mod_eq_of_lt t.nanos_lt
  simp only [ofParts?, hcarry, hrest, Nat.add_zero, t.seconds_lt, dif_pos]

theorem Timestamp.decode_toJson (t : Timestamp) (room : Nat) :
    decode (room + 1) (Json.source t.toJson) = some t := by
  have hseconds := Json.decodeNatural_ofNat
    (Nat.lt_trans t.seconds_lt (show secondsBound < UInt64.size by decide)) room
  have hnanos := Json.decodeNatural_ofNat
    (Nat.lt_trans t.nanos_lt (show nanosPerSecond < UInt32.size by decide)) room
  simp [decode, toJson, Json.source, Json.sourceFields, Json.closedFields?, Json.recordFields?,
    Json.textKeys?, Json.single?, Json.required, hseconds, hnanos, ofParts?_parts]

theorem Entry.decode_toJson (e : Entry) (room : Nat) :
    decode (room + 2) (Json.source e.toJson) = some e := by
  have hversion := Json.decodeNatural_ofNat e.version.toNat_lt (room + 1)
  simp [decode, toJson, Json.source, Json.sourceFields, Json.recordFields?, Json.textKeys?,
    Json.single?, Json.required, Json.decodeText, Digest.decode, Digest.ofText?_text, hversion,
    e.recordedAt.decode_toJson]
  rfl

/-- The text of an entry's file gives back the entry. -/
theorem Entry.ofText?_text (e : Entry) : ofText? e.text = some e := by
  rw [ofText?, text, Json.read_pretty, Option.bind_eq_bind, Option.bind_some]
  exact e.decode_toJson 125

namespace Ledger

theorem textOf?_text (e : Entry) : textOf? (.file e.text.toByteArray) = some e.text :=
  fromUTF8?_toByteArray e.text

end Ledger

end ShapeLedger
