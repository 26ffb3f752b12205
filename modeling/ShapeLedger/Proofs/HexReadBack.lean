import Mathlib.Tactic.SplitIfs
import ShapeLedger.Text.Hex

/-!
Hexadecimal digits read and written. A text stands for bytes exactly if it has
an even number of digits and nothing else, and the bytes are written again in
the same digits but for their case. So the texts of some bytes are those that
become what is written for the bytes when they are put into lower case. Written
bytes are in the order of the bytes, because digits are in the order of their
values.
-/

namespace ShapeLedger.Text.Hex

/-- A decimal digit or one of the first six letters, in either case. -/
def IsDigit (c : Char) : Prop :=
  ('0' ≤ c ∧ c ≤ '9') ∨ ('a' ≤ c ∧ c ≤ 'f') ∨ ('A' ≤ c ∧ c ≤ 'F')

instance : DecidablePred IsDigit := fun _ => inferInstanceAs (Decidable (_ ∨ _ ∨ _))

theorem isSome_value?_iff {c : Char} : (value? c).isSome ↔ IsDigit c := by
  rw [value?, IsDigit]
  split_ifs with hdecimal hlower hupper <;> simp [*]

theorem IsDigit.toNat_lt {c : Char} (h : IsDigit c) : c.toNat < 128 := by
  simp only [IsDigit, Char.le_def, UInt32.le_iff_toNat_le] at h
  have : c.toNat = c.val.toNat := rfl
  have h9 : '9'.val.toNat = 57 := rfl
  have hf : 'f'.val.toNat = 102 := rfl
  have hF : 'F'.val.toNat = 70 := rfl
  omega

/-- A digit of value `n` is the digit that is written for `n`, perhaps in upper case. -/
theorem digit_of_value? {c : Char} {n : Nat} (h : value? c = some n) :
    n < 16 ∧ digit n = c.toLower := by
  -- Digits are ASCII, so a table of that is enough.
  have htable : ∀ k : Fin 128, (value? (Char.ofNat k)).all fun n =>
      decide (n < 16 ∧ digit n = (Char.ofNat k).toLower) := by
    decide
  have hc : c.toNat < 128 := (isSome_value?_iff.mp (h ▸ rfl)).toNat_lt
  have hentry := htable ⟨c.toNat, hc⟩
  rw [Char.ofNat_toNat, h] at hentry
  simpa using hentry

theorem decode?_cons_cons_eq_some_iff {high low : Char} {rest : List Char} {bytes : List UInt8} :
    decode? (high :: low :: rest) = some bytes ↔ ∃ h l tail, value? high = some h ∧
      value? low = some l ∧ decode? rest = some tail ∧ UInt8.ofNat (16 * h + l) :: tail = bytes := by
  simp [decode?, Option.bind_eq_some_iff]

/-- What is read is written again in the same digits, in lower case. -/
theorem encode_of_decode? {s : List Char} {bytes : List UInt8}
    (hbytes : decode? s = some bytes) : encode bytes = s.map Char.toLower := by
  induction s using decode?.induct generalizing bytes with
  | case1 =>
    cases hbytes
    rfl
  | case2 c => cases hbytes
  | case3 high low rest ih =>
    obtain ⟨h, l, tail, hhigh, hlow, htail, rfl⟩ := decode?_cons_cons_eq_some_iff.mp hbytes
    obtain ⟨hlt, hdigit⟩ := digit_of_value? hhigh
    obtain ⟨llt, ldigit⟩ := digit_of_value? hlow
    have hbyte : (UInt8.ofNat (16 * h + l)).toNat = 16 * h + l :=
      UInt8.toNat_ofNat_of_lt' (by simp only [UInt8.size]; omega)
    have hdiv : (16 * h + l) / 16 = h := by omega
    have hmod : (16 * h + l) % 16 = l := by omega
    rw [encode, hbyte, hdiv, hmod, hdigit, ldigit, ih htail, List.map_cons, List.map_cons]

theorem exists_decode?_iff {s : List Char} : (∃ bytes, decode? s = some bytes) ↔
    s.length % 2 = 0 ∧ ∀ c ∈ s, IsDigit c := by
  induction s using decode?.induct with
  | case1 => simp [decode?]
  | case2 c => simp [decode?]
  | case3 high low rest ih =>
    have hlength : (high :: low :: rest).length % 2 = rest.length % 2 := by
      simp only [List.length_cons]
      omega
    rw [hlength, List.forall_mem_cons, List.forall_mem_cons, ← isSome_value?_iff,
      ← isSome_value?_iff, Option.isSome_iff_exists, Option.isSome_iff_exists]
    constructor
    · rintro ⟨_, hbytes⟩
      obtain ⟨h, l, tail, hhigh, hlow, htail, -⟩ := decode?_cons_cons_eq_some_iff.mp hbytes
      obtain ⟨heven, hdigits⟩ := ih.mp ⟨tail, htail⟩
      exact ⟨heven, ⟨h, hhigh⟩, ⟨l, hlow⟩, hdigits⟩
    · rintro ⟨heven, ⟨h, hhigh⟩, ⟨l, hlow⟩, hdigits⟩
      obtain ⟨tail, htail⟩ := ih.mpr ⟨heven, hdigits⟩
      exact ⟨_, decode?_cons_cons_eq_some_iff.mpr ⟨h, l, tail, hhigh, hlow, htail, rfl⟩⟩

/-- The case of a digit does not matter. -/
theorem value?_toLower (c : Char) : value? c.toLower = value? c := by
  by_cases hascii : c.toNat < 128
  · have htable : ∀ k : Fin 128, value? (Char.ofNat k).toLower = value? (Char.ofNat k) := by
      decide
    have hentry := htable ⟨c.toNat, hascii⟩
    rwa [Char.ofNat_toNat] at hentry
  · -- Letters that have a lower case are ASCII.
    have hcapital : ¬ (c.val ≥ 'A'.val ∧ c.val ≤ 'Z'.val) := by
      rintro ⟨-, hle⟩
      have hZ : 'Z'.val.toNat = 90 := rfl
      have hc : c.toNat = c.val.toNat := rfl
      have hnat := UInt32.le_iff_toNat_le.mp hle
      omega
    have hlower : c.toLower = c := dif_neg hcapital
    rw [hlower]

theorem decode?_map_toLower (s : List Char) : decode? (s.map Char.toLower) = decode? s := by
  induction s using decode?.induct with
  | case1 => rfl
  | case2 c => rfl
  | case3 high low rest ih => simp only [List.map_cons, decode?, value?_toLower, ih]

/-- What a text of bytes is but for the case of its digits. -/
theorem decode?_eq_some_iff {s : List Char} {bytes : List UInt8} :
    decode? s = some bytes ↔ s.map Char.toLower = encode bytes := by
  constructor
  · intro h
    exact (encode_of_decode? h).symm
  · intro h
    rw [← decode?_map_toLower, h, decode?_encode]

theorem decode?_eq_some_nil_iff {s : List Char} : decode? s = some [] ↔ s = [] := by
  rw [decode?_eq_some_iff, encode, List.map_eq_nil_iff]

theorem encode_inj {as bs : List UInt8} : encode as = encode bs ↔ as = bs := by
  constructor
  · intro h
    have hbytes := decode?_encode as
    rw [h, decode?_encode] at hbytes
    exact (Option.some.inj hbytes).symm
  · rintro rfl
    rfl

/-- Two digits make a byte. -/
theorem length_of_decode? {s : List Char} {bytes : List UInt8} (h : decode? s = some bytes) :
    s.length = 2 * bytes.length := by
  rw [← length_encode, encode_of_decode? h, List.length_map]

/-! ### Texts of digits -/

theorem utf8EncodeChar_of_lt {c : Char} (h : c.toNat < 128) :
    String.utf8EncodeChar c = [UInt8.ofNat c.toNat] := by
  have hone : c.val.toNat ≤ 127 := Nat.le_of_lt_succ h
  rw [String.utf8EncodeChar]
  simp only [hone, if_true]
  rfl

/-- A digit is one byte. -/
theorem utf8ByteSize_of_digits {s : String} (h : ∀ c ∈ s.toList, IsDigit c) :
    s.utf8ByteSize = s.length := by
  have hbytes : s.utf8ByteSize = (s.toList.flatMap String.utf8EncodeChar).length := by
    rw [← String.size_toByteArray, ← String.utf8Encode_toList, List.utf8Encode,
      List.size_toByteArray]
  have hone : ∀ c ∈ s.toList, (String.utf8EncodeChar c).length = 1 := by
    intro c hc
    rw [utf8EncodeChar_of_lt (h c hc).toNat_lt, List.length_singleton]
  rw [hbytes, List.length_flatMap, List.map_congr_left hone, List.map_const',
    List.sum_replicate_nat, Nat.mul_one, String.length_toList]

theorem toList_toLower (s : String) : s.toLower.toList = s.toList.map Char.toLower :=
  String.toList_map

theorem toLower_eq_ofList_encode_iff {s : String} {bytes : List UInt8} :
    s.toLower = String.ofList (encode bytes) ↔ decode? s.toList = some bytes := by
  rw [decode?_eq_some_iff, ← toList_toLower, ← String.toList_inj, String.toList_ofList]

/-! ### The order of what is written -/

theorem digit_lt_digit_iff {m n : Nat} (hm : m < 16) (hn : n < 16) :
    digit m < digit n ↔ m < n := by
  have htable : ∀ m n : Fin 16, digit m < digit n ↔ m.val < n.val := by decide
  exact htable ⟨m, hm⟩ ⟨n, hn⟩

theorem digit_inj {m n : Nat} (hm : m < 16) (hn : n < 16) : digit m = digit n ↔ m = n := by
  have htable : ∀ m n : Fin 16, digit m = digit n ↔ m.val = n.val := by decide
  exact htable ⟨m, hm⟩ ⟨n, hn⟩

/-- The order of written bytes is that of the bytes. -/
theorem encode_lt_encode_iff {as bs : List UInt8} : encode as < encode bs ↔ as < bs := by
  induction as generalizing bs with
  | nil => cases bs <;> simp [encode]
  | cons a as ih =>
    cases bs with
    | nil => simp [encode]
    | cons b bs =>
      have hhigh (x : UInt8) : x.toNat / 16 < 16 := by
        have hx := x.toNat_lt
        omega
      have hlow (x : UInt8) : x.toNat % 16 < 16 := Nat.mod_lt _ (by decide)
      rw [encode, encode, List.cons_lt_cons_iff, List.cons_lt_cons_iff, List.cons_lt_cons_iff, ih,
        digit_lt_digit_iff (hhigh a) (hhigh b), digit_lt_digit_iff (hlow a) (hlow b),
        digit_inj (hhigh a) (hhigh b), digit_inj (hlow a) (hlow b)]
      -- The high digit decides, and the low one between bytes of one high digit.
      rw [UInt8.lt_iff_toNat_lt, ← UInt8.toNat_inj]
      by_cases hrest : as < bs
      · simp only [hrest, and_true]
        omega
      · simp only [hrest, and_false, or_false]
        omega

end ShapeLedger.Text.Hex
