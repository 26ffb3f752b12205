import ShapeLedger.Digest
import ShapeLedger.Proofs.HexReadBack

/-!
Digests as texts. Thirty-two digits of either case are read, and nothing else.
A text of another length is refused for its length in bytes, whatever it holds,
and one of the right length for its first byte that is no digit. Texts are read
back and written again in lower case, and they are in the order of the digests.
-/

namespace ShapeLedger.Digest

open Text.Hex (IsDigit utf8EncodeChar_of_lt utf8ByteSize_of_digits toList_toLower)

/-- The UTF-8 bytes of a text. -/
def bytesOf (s : String) : List UInt8 := s.toByteArray.data.toList

/-- The character whose number a byte is. -/
def charOf (b : UInt8) : Char := Char.ofNat b.toNat

/-- The first byte of a text that is no digit. -/
def firstOther? (s : String) : Option UInt8 := (bytesOf s).find? fun b => ¬ IsDigit (charOf b)

/-- Why a text is refused: for its length in bytes, or else for its first byte that is no digit. -/
inductive Refused (s : String) : DigestError → Prop
  | length (h : s.utf8ByteSize ≠ 32) : Refused s (.invalidLength s.utf8ByteSize)
  | digit {b : UInt8} (h : s.utf8ByteSize = 32) (first : firstOther? s = some b) :
    Refused s (.invalidHex (charOf b))

variable {s : String} {d : Digest} {e : DigestError}

/-! ### The bytes of a text -/

theorem bytesOf_eq (s : String) : bytesOf s = s.toList.flatMap String.utf8EncodeChar := by
  rw [bytesOf, ← String.utf8Encode_toList, List.utf8Encode, List.toList_data_toByteArray]

theorem toNat_charOf (b : UInt8) : (charOf b).toNat = b.toNat := by
  have hvalid : b.toNat.isValidChar := by
    have hb := b.toNat_lt
    exact .inl (by omega)
  rw [charOf, Char.ofNat, dif_pos hvalid]
  rfl

theorem charOf_ofNat {c : Char} (h : c.toNat < 128) : charOf (UInt8.ofNat c.toNat) = c := by
  have hbyte : (UInt8.ofNat c.toNat).toNat = c.toNat := by
    refine UInt8.toNat_ofNat_of_lt' ?_
    simp only [UInt8.size]
    omega
  rw [charOf, hbyte, Char.ofNat_toNat]

/-- The bytes of a character beyond ASCII begin with one beyond ASCII. -/
theorem exists_leadByte {c : Char} (h : ¬ c.toNat < 128) :
    ∃ b rest, String.utf8EncodeChar c = b :: rest ∧ 128 ≤ b.toNat := by
  have hmany : ¬ c.val.toNat ≤ 127 := fun hle => h (Nat.lt_succ_of_le hle)
  have hbyte {n : Nat} (hn : 128 ≤ n) (hlt : n < 256) : 128 ≤ (UInt8.ofNat n).toNat := by
    rw [UInt8.toNat_ofNat_of_lt' hlt]
    exact hn
  rw [String.utf8EncodeChar]
  simp only [hmany, if_false]
  split_ifs
  · exact ⟨_, _, rfl, hbyte (by omega) (by omega)⟩
  · exact ⟨_, _, rfl, hbyte (by omega) (by omega)⟩
  · exact ⟨_, _, rfl, hbyte (by omega) (by omega)⟩

/-- A digit is one byte, and of any other character the first byte is no digit. -/
theorem find?_utf8EncodeChar (c : Char) :
    (String.utf8EncodeChar c).find? (fun b => ¬ IsDigit (charOf b)) =
      if IsDigit c then none else some ((String.utf8EncodeChar c).headD 0) := by
  by_cases hascii : c.toNat < 128
  · rw [utf8EncodeChar_of_lt hascii]
    by_cases hc : IsDigit c <;> simp [charOf_ofNat hascii, hc]
  · -- Digits are ASCII, and the search ends at a byte that is not.
    obtain ⟨b, rest, hbytes, hb⟩ := exists_leadByte hascii
    have hother : ¬ IsDigit (charOf b) := by
      intro hdigit
      have hlt := hdigit.toNat_lt
      rw [toNat_charOf] at hlt
      omega
    rw [hbytes, if_neg fun hc => hascii hc.toNat_lt]
    simp [hother]

theorem firstOther?_eq (s : String) : firstOther? s =
    (s.toList.find? fun c => ¬ IsDigit c).map fun c => (String.utf8EncodeChar c).headD 0 := by
  rw [firstOther?, bytesOf_eq, List.find?_flatMap]
  induction s.toList with
  | nil => rfl
  | cons c cs ih =>
    rw [List.findSome?_cons, List.find?_cons, ih, find?_utf8EncodeChar]
    by_cases hc : IsDigit c <;> simp [hc]

/-! ### Texts that are read, and texts that are refused -/

theorem ofBytes?_eq_some_iff {bytes : List UInt8} : ofBytes? bytes = some d ↔ bytes = d.bytes := by
  rw [ofBytes?]
  constructor
  · intro h
    split at h
    · cases h
      rfl
    · cases h
  · rintro rfl
    rw [dif_pos d.length_bytes]

theorem ofText?_eq_ok_iff : ofText? s = .ok d ↔ Text.Hex.decode? s.toList = some d.bytes := by
  have hread : (Text.Hex.decode? s.toList).bind ofBytes? = some d ↔
      Text.Hex.decode? s.toList = some d.bytes := by
    simp only [Option.bind_eq_some_iff, ofBytes?_eq_some_iff, exists_eq_right]
  rw [← hread, ofText?]
  cases (Text.Hex.decode? s.toList).bind ofBytes? <;> simp

theorem exists_ofText?_iff : (∃ d, ofText? s = .ok d) ↔
    s.length = 32 ∧ ∀ c ∈ s.toList, IsDigit c := by
  rw [← String.length_toList]
  constructor
  · rintro ⟨d, h⟩
    have hbytes := ofText?_eq_ok_iff.mp h
    have hlength := Text.Hex.length_of_decode? hbytes
    rw [d.length_bytes] at hlength
    exact ⟨hlength, (Text.Hex.exists_decode?_iff.mp ⟨_, hbytes⟩).2⟩
  · rintro ⟨hlength, hdigits⟩
    have heven : s.toList.length % 2 = 0 := by rw [hlength]
    obtain ⟨bytes, hbytes⟩ := Text.Hex.exists_decode?_iff.mpr ⟨heven, hdigits⟩
    have hsixteen : bytes.length = 16 := by
      have htwo := Text.Hex.length_of_decode? hbytes
      omega
    exact ⟨⟨bytes, hsixteen⟩, ofText?_eq_ok_iff.mpr hbytes⟩

theorem ofText?_eq_fault (h : ¬ ∃ d, ofText? s = .ok d) : ofText? s = .error (fault s) := by
  rw [ofText?] at h ⊢
  cases hread : (Text.Hex.decode? s.toList).bind ofBytes? with
  | none => rfl
  | some d => exact absurd ⟨d, by rw [hread]⟩ h

/-- The first character that is no digit has the first byte that is none. -/
theorem refused_fault (h : ¬ ∃ d, ofText? s = .ok d) : Refused s (fault s) := by
  have hother : (fun c => (Text.Hex.value? c).isNone) = fun c => decide (¬ IsDigit c) := by
    funext c
    rw [Bool.eq_iff_iff, decide_eq_true_iff, ← Text.Hex.isSome_value?_iff]
    simp
  rw [fault, hother]
  split
  · rename_i c hc
    split
    · rename_i hsize
      exact .digit hsize (by rw [firstOther?_eq, hc, Option.map_some])
    · rename_i hsize
      exact .length hsize
  · -- With nothing but digits there are as many bytes as characters, so it is the length.
    rename_i hnone
    have hdigits : ∀ c ∈ s.toList, IsDigit c := by simpa using hnone
    refine .length fun hsize => h (exists_ofText?_iff.mpr ⟨?_, hdigits⟩)
    rw [← utf8ByteSize_of_digits hdigits, hsize]

theorem Refused.not_read (h : Refused s e) : ¬ ∃ d, ofText? s = .ok d := by
  rw [exists_ofText?_iff]
  rintro ⟨hlength, hdigits⟩
  cases h with
  | length hsize => exact hsize ((utf8ByteSize_of_digits hdigits).trans hlength)
  | digit _ first =>
    have hnone : (s.toList.find? fun c => ¬ IsDigit c) = none := by simpa using hdigits
    rw [firstOther?_eq, hnone] at first
    cases first

/-- A text is refused for one reason. -/
theorem Refused.unique {e' : DigestError} (h : Refused s e) (h' : Refused s e') : e = e' := by
  cases h with
  | length hsize =>
    cases h' with
    | length => rfl
    | digit hsize' => exact absurd hsize' hsize
  | digit hsize first =>
    cases h' with
    | length hsize' => exact absurd hsize hsize'
    | digit _ first' =>
      cases first.symm.trans first'
      rfl

theorem ofText?_eq_error_iff : ofText? s = .error e ↔ Refused s e := by
  constructor
  · intro h
    have hnot : ¬ ∃ d, ofText? s = .ok d := by
      rintro ⟨d, hd⟩
      cases h.symm.trans hd
    have hfault := ofText?_eq_fault hnot
    rw [h] at hfault
    cases hfault
    exact refused_fault hnot
  · intro h
    rw [ofText?_eq_fault h.not_read, (refused_fault h.not_read).unique h]

/-! ### Texts of digests -/

theorem ofText?_text (d : Digest) : ofText? d.text = .ok d := by
  rw [ofText?_eq_ok_iff, text, String.toList_ofList, Text.Hex.decode?_encode]

theorem text_of_ofText? (h : ofText? s = .ok d) : d.text = s.toLower :=
  (Text.Hex.toLower_eq_ofList_encode_iff.mpr (ofText?_eq_ok_iff.mp h)).symm

theorem le_iff_text_le (d e : Digest) : d ≤ e ↔ d.text ≤ e.text := by
  have hlt : e.text < d.text ↔ e.bytes < d.bytes := by
    rw [String.lt_iff, text, text, String.toList_ofList, String.toList_ofList,
      Text.Hex.encode_lt_encode_iff]
  rw [← String.not_lt, hlt]
  exact List.not_lt.symm

/-- Texts of thirty-two digits are read, and others are refused for their length or else for the
first byte that is no digit. Reading undoes writing, writing undoes reading but for the case of the
digits, and texts are in the order of their digests. -/
theorem text_codec :
    (∀ s, (∃ d, ofText? s = .ok d) ↔ s.length = 32 ∧ ∀ c ∈ s.toList, IsDigit c) ∧
      (∀ s e, ofText? s = .error e ↔ Refused s e) ∧
      (∀ d, ofText? d.text = .ok d) ∧
      (∀ s d, ofText? s = .ok d → d.text = s.toLower) ∧
      ∀ d e : Digest, d ≤ e ↔ d.text ≤ e.text :=
  ⟨fun _ => exists_ofText?_iff, fun _ _ => ofText?_eq_error_iff, ofText?_text,
    fun _ _ => text_of_ofText?, le_iff_text_le⟩

/-- Digits in upper case are read. A text of thirty-two bytes that ends with a character of two is
refused for the first of these. -/
theorem text_codec_capitals :
    (∃ d, ofText? "D41D8CD98F00B204E9800998ECF8427E" = .ok d ∧
        d.text = "d41d8cd98f00b204e9800998ecf8427e") ∧
      ofText? "d41d8cd98f00b204e9800998ecf842é" = .error (.invalidHex 'Ã') ∧
      ofText? "d41d8cd98f00b204e9800998ecf8427é" = .error (.invalidLength 33) := by
  obtain ⟨hread, hrefused, -, hlower, -⟩ := text_codec
  have hdigits : ("D41D8CD98F00B204E9800998ECF8427E".toList.all fun c => IsDigit c) = true := by
    decide
  obtain ⟨d, hd⟩ := (hread "D41D8CD98F00B204E9800998ECF8427E").mpr
    ⟨by decide, fun c hc => of_decide_eq_true (List.all_eq_true.mp hdigits c hc)⟩
  have hcase : "D41D8CD98F00B204E9800998ECF8427E".toLower = "d41d8cd98f00b204e9800998ecf8427e" := by
    apply String.toList_injective
    rw [toList_toLower]
    decide
  have hfirst : firstOther? "d41d8cd98f00b204e9800998ecf842é" = some 0xc3 := by decide +kernel
  exact ⟨⟨d, hd, (hlower _ d hd).trans hcase⟩,
    (hrefused _ _).mpr (.digit (by decide) hfirst), (hrefused _ _).mpr (.length (by decide))⟩

end ShapeLedger.Digest
