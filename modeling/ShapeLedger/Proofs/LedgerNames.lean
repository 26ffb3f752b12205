import ShapeLedger.Ledger
import ShapeLedger.Proofs.HexReadBack

/-!
The names of directories and files, written and read. A directory stands for a
type exactly if its name is that of the type's directory but for the case of the
digits, so two types never share a directory, and every other directory is
passed over. The name of a file gives back the version. A file may be named for
a version in other ways too, with zeros or a plus sign before its number, and in
no others.
-/

namespace ShapeLedger

open FileTree (Route)

namespace Ledger

variable {directory name : String}

/-! ### Names of directories -/

theorem fromUTF8?_toByteArray (s : String) : String.fromUTF8? s.toByteArray = some s := by
  rw [String.fromUTF8?, dif_pos s.isValidUTF8]
  rfl

theorem fromUTF8?_eq_some_iff {bytes : ByteArray} {s : String} :
    String.fromUTF8? bytes = some s ↔ bytes = s.toByteArray := by
  constructor
  · intro h
    rw [String.fromUTF8?] at h
    split at h
    · cases h
      rfl
    · cases h
  · rintro rfl
    exact fromUTF8?_toByteArray s

theorem toLower_directoryName (name : String) :
    (directoryName name).toLower = directoryName name := by
  rw [directoryName, Text.Hex.toLower_eq_ofList_encode_iff, String.toList_ofList,
    Text.Hex.decode?_encode]

theorem directoryName_inj {m n : String} (h : directoryName m = directoryName n) : m = n := by
  have hbytes := Text.Hex.encode_inj.mp (String.ofList_injective h)
  exact String.toByteArray_inj.mp (ByteArray.ext (Array.toList_inj.mp hbytes))

/-- The case of the digits in the name of a directory does not matter, and nothing else is
forgiven. -/
theorem typeName?_eq_some_iff :
    typeName? directory = some name ↔ name ≠ "" ∧ directory.toLower = directoryName name := by
  rw [directoryName, Text.Hex.toLower_eq_ofList_encode_iff]
  simp only [typeName?, Option.bind_eq_bind, Option.bind_eq_some_iff, fromUTF8?_eq_some_iff]
  constructor
  · rintro ⟨bytes, hbytes, text, htext, h⟩
    split at h
    · cases h
    · rename_i hname
      cases h
      refine ⟨by simpa using hname, ?_⟩
      rw [hbytes, ← htext]
  · rintro ⟨hname, hbytes⟩
    exact ⟨_, hbytes, name, by simp, by simp [hname]⟩

theorem typeName?_directoryName (h : name ≠ "") : typeName? (directoryName name) = some name :=
  typeName?_eq_some_iff.mpr ⟨h, toLower_directoryName name⟩

/-- A directory that stands for no type: its name has an odd number of bytes, or holds a character
that is no digit, or is written in the digits of bytes that are no text, or is empty. -/
inductive Foreign (directory : String) : Prop
  | odd (h : directory.utf8ByteSize % 2 = 1)
  | other {c : Char} (mem : c ∈ directory.toList) (h : ¬ Text.Hex.IsDigit c)
  | noText {bytes : List UInt8} (h : directory.toLower = String.ofList (Text.Hex.encode bytes))
    (invalid : ¬ (ByteArray.mk bytes.toArray).IsValidUTF8)
  | nameless (h : directory = "")

theorem Foreign.not_read (h : Foreign directory) : typeName? directory ≠ some name := by
  intro hread
  obtain ⟨hname, hlower⟩ := typeName?_eq_some_iff.mp hread
  have hbytes := Text.Hex.toLower_eq_ofList_encode_iff.mp hlower
  obtain ⟨heven, hdigits⟩ := Text.Hex.exists_decode?_iff.mp ⟨_, hbytes⟩
  cases h with
  | odd hodd =>
    rw [Text.Hex.utf8ByteSize_of_digits hdigits, ← String.length_toList] at hodd
    omega
  | other mem hother => exact hother (hdigits _ mem)
  | noText hsame invalid =>
    rw [Text.Hex.toLower_eq_ofList_encode_iff, hbytes, Option.some.injEq] at hsame
    rw [← hsame] at invalid
    exact invalid (by simpa using name.isValidUTF8)
  | nameless hnone =>
    have hempty : typeName? "" = none := rfl
    rw [hnone, hempty] at hread
    cases hread

theorem foreign_of_not_read (h : typeName? directory = none) : Foreign directory := by
  by_cases hdigits : ∀ c ∈ directory.toList, Text.Hex.IsDigit c
  case neg =>
    obtain ⟨c, hc⟩ := Classical.not_forall.mp hdigits
    obtain ⟨mem, hother⟩ := Classical.not_imp.mp hc
    exact .other mem hother
  by_cases heven : directory.toList.length % 2 = 0
  case neg =>
    refine .odd ?_
    rw [Text.Hex.utf8ByteSize_of_digits hdigits, ← String.length_toList]
    omega
  obtain ⟨bytes, hbytes⟩ := Text.Hex.exists_decode?_iff.mpr ⟨heven, hdigits⟩
  have hlower := Text.Hex.toLower_eq_ofList_encode_iff.mpr hbytes
  by_cases hvalid : (ByteArray.mk bytes.toArray).IsValidUTF8
  case neg => exact .noText hlower hvalid
  -- The directory is that of a text, which is no name only if it is empty.
  obtain ⟨name, rfl⟩ : ∃ name : String, bytes = name.toByteArray.data.toList :=
    ⟨String.ofByteArray _ hvalid, rfl⟩
  by_cases hname : name = ""
  case neg => cases h.symm.trans (typeName?_eq_some_iff.mpr ⟨hname, hlower⟩)
  refine .nameless (String.toList_eq_nil_iff.mp (Text.Hex.decode?_eq_some_nil_iff.mp ?_))
  rw [hbytes, hname]
  rfl

theorem typeName?_eq_none_iff : typeName? directory = none ↔ Foreign directory :=
  ⟨foreign_of_not_read, fun h => Option.eq_none_iff_forall_ne_some.mpr fun _ => h.not_read⟩

/-- What stands for no type is passed over, whatever is in it. -/
theorem loadInto_of_foreign {root : Route} {r : Registry} {t : FileTree}
    {entries : List (String × FileTree)} (h : Foreign directory) :
    loadInto root r ((directory, t) :: entries) = loadInto root r entries := by
  have hnone : typeDirectory? root (directory, t) = none := by
    cases t with
    | file content => rfl
    | directory files => simp [typeDirectory?, typeName?_eq_none_iff.mpr h]
  rw [loadInto, hnone]

/-! ### Parts of routes -/

/-- A part that can be read back, while those that name nothing cannot, is a name. -/
theorem isName_of_reads {α : Type} {read? : String → Option α} (hempty : read? "" = none)
    (hdot : read? "." = none) (hdots : read? ".." = none) {part : String} {a : α}
    (h : read? part = some a) : Route.isName part = true := by
  simp only [Route.isName, Bool.and_eq_true, decide_eq_true_eq]
  refine ⟨⟨?_, ?_⟩, ?_⟩
  · rintro rfl
    cases hempty.symm.trans h
  · rintro rfl
    cases hdot.symm.trans h
  · rintro rfl
    cases hdots.symm.trans h

theorem isName_of_typeName? (h : typeName? directory = some name) :
    Route.isName directory = true :=
  isName_of_reads rfl rfl rfl h

theorem isName_directoryName (h : name ≠ "") :
    Route.isName (directoryName name) = true :=
  isName_of_typeName? (typeName?_directoryName h)

/-! ### Names of files -/

/-- A version number as it may be written: decimal digits, perhaps after a plus sign. -/
def Numeral (s : List Char) (v : UInt32) : Prop :=
  ∃ plus digits, (plus = [] ∨ plus = ['+']) ∧ digits ≠ [] ∧ (∀ c ∈ digits, c.isDigit = true) ∧
    s = plus ++ digits ∧ Nat.ofDigitChars 10 digits 0 = v.toNat

/-- A file whose name is `v`, a version number and `.json`. -/
def NamedFor (file : String) (v : UInt32) : Prop :=
  ∃ s, file.toList = 'v' :: (s ++ ".json".toList) ∧ Numeral s v

/-- The version number that digits stand for. -/
def versionOfDigits? (digits : List Char) : Option UInt32 :=
  if digits.isEmpty || !digits.all Char.isDigit then none
  else
    let n := Nat.ofDigitChars 10 digits 0
    if n < UInt32.size then some (UInt32.ofNat n) else none

theorem versionOfDigits?_eq_some_iff {digits : List Char} {v : UInt32} :
    versionOfDigits? digits = some v ↔ digits ≠ [] ∧ (∀ c ∈ digits, c.isDigit = true) ∧
      Nat.ofDigitChars 10 digits 0 = v.toNat := by
  have hvalue {n : Nat} : (if n < UInt32.size then some (UInt32.ofNat n) else none) = some v ↔
      n = v.toNat := by
    constructor
    · intro h
      split at h
      · cases h
        exact (UInt32.toNat_ofNat_of_lt' ‹_›).symm
      · cases h
    · rintro rfl
      rw [if_pos v.toNat_lt, UInt32.ofNat_toNat]
  rw [versionOfDigits?]
  split
  · rename_i h
    simp only [Bool.or_eq_true, List.isEmpty_iff, Bool.not_eq_true', List.all_eq_false] at h
    simp only [reduceCtorEq, false_iff]
    rintro ⟨hne, hdigits, -⟩
    rcases h with h | ⟨c, hc, h⟩
    · exact hne h
    · exact h (hdigits c hc)
  · rename_i h
    simp only [Bool.or_eq_true, List.isEmpty_iff, Bool.not_eq_true', not_or,
      Bool.not_eq_false, List.all_eq_true] at h
    rw [hvalue]
    exact ⟨fun hn => ⟨h.1, h.2, hn⟩, fun hn => hn.2.2⟩

theorem versionNumber?_plus (digits : List Char) :
    versionNumber? ('+' :: digits) = versionOfDigits? digits := rfl

theorem versionNumber?_of_no_plus {s : List Char} (h : ∀ digits, s ≠ '+' :: digits) :
    versionNumber? s = versionOfDigits? s := by
  rw [versionNumber?]
  · rfl
  · exact h

theorem versionNumber?_eq_some_iff {s : List Char} {v : UInt32} :
    versionNumber? s = some v ↔ Numeral s v := by
  constructor
  · intro h
    by_cases hplus : ∃ digits, s = '+' :: digits
    · obtain ⟨digits, rfl⟩ := hplus
      rw [versionNumber?_plus] at h
      obtain ⟨hne, hdigits, hn⟩ := versionOfDigits?_eq_some_iff.mp h
      exact ⟨['+'], digits, .inr rfl, hne, hdigits, rfl, hn⟩
    · rw [versionNumber?_of_no_plus (not_exists.mp hplus)] at h
      obtain ⟨hne, hdigits, hn⟩ := versionOfDigits?_eq_some_iff.mp h
      exact ⟨[], s, .inl rfl, hne, hdigits, rfl, hn⟩
  · rintro ⟨plus, digits, hplus, hne, hdigits, rfl, hn⟩
    rcases hplus with rfl | rfl
    · -- A plus sign is no digit, so there is none to take away.
      have hplus : ∀ ds, digits ≠ '+' :: ds := by
        rintro ds rfl
        cases hdigits '+' List.mem_cons_self
      rw [List.nil_append, versionNumber?_of_no_plus hplus]
      exact versionOfDigits?_eq_some_iff.mpr ⟨hne, hdigits, hn⟩
    · rw [List.singleton_append, versionNumber?_plus]
      exact versionOfDigits?_eq_some_iff.mpr ⟨hne, hdigits, hn⟩

theorem version?_eq_some_iff {file : String} {v : UInt32} :
    version? file = some v ↔ NamedFor file v := by
  have hlength : ".json".toList.length = 5 := rfl
  rw [version?, NamedFor]
  constructor
  · intro h
    split at h
    · rename_i s hfile
      split at h
      · rename_i hsuffix
        obtain ⟨t, rfl⟩ := List.isSuffixOf_iff_suffix.mp hsuffix
        rw [List.length_append, hlength, Nat.add_sub_cancel, List.take_left] at h
        exact ⟨t, hfile, versionNumber?_eq_some_iff.mp h⟩
      · cases h
    · cases h
  · rintro ⟨s, hfile, hs⟩
    have hsuffix : ".json".toList.isSuffixOf (s ++ ".json".toList) = true :=
      List.isSuffixOf_iff_suffix.mpr (List.suffix_append _ _)
    simp only [hfile, hsuffix, if_true, List.length_append, hlength, Nat.add_sub_cancel,
      List.take_left, versionNumber?_eq_some_iff.mpr hs]

theorem version?_fileName (v : UInt32) : version? (fileName v) = some v := by
  have hname : (fileName v).toList = 'v' :: (v.toNat.repr.toList ++ ".json".toList) := by
    simp [fileName]
  have hdigit : ∀ c ∈ Nat.toDigits 10 v.toNat, c.isDigit = true :=
    fun c hc => Nat.isDigit_of_mem_toDigits (by decide) (by decide) hc
  refine version?_eq_some_iff.mpr ⟨_, hname, [], _, .inl rfl, Nat.toDigits_ne_nil, hdigit, ?_, ?_⟩
  · rw [Nat.toList_repr, List.nil_append]
  · exact Nat.ofDigitChars_ten_toDigits

theorem fileName_inj {v w : UInt32} (h : fileName v = fileName w) : v = w := by
  have hversion := version?_fileName v
  rw [h, version?_fileName] at hversion
  exact (Option.some.inj hversion).symm

theorem isName_of_version? {file : String} {v : UInt32} (h : version? file = some v) :
    Route.isName file = true :=
  isName_of_reads rfl rfl rfl h

theorem isName_fileName (v : UInt32) : Route.isName (fileName v) = true :=
  isName_of_version? (version?_fileName v)

/-! ### Both together -/

/-- A directory stands for a type exactly if its name, its ASCII letters in lower case, is that of
the type's directory. What stands for no type is foreign and passed over, and two types never share
a directory. The name of a file gives back its version, so two versions never share a file. -/
theorem name_codec :
    (∀ directory name, name ≠ "" →
        (typeName? directory = some name ↔ directory.toLower = directoryName name)) ∧
      (∀ directory, typeName? directory = none ↔ Foreign directory) ∧
      (∀ directory, Foreign directory → ∀ t root r entries,
        loadInto root r ((directory, t) :: entries) = loadInto root r entries) ∧
      Function.Injective directoryName ∧
      (∀ v, version? (fileName v) = some v) ∧
      Function.Injective fileName :=
  ⟨fun _ _ hname => typeName?_eq_some_iff.trans (and_iff_right hname),
    fun _ => typeName?_eq_none_iff, fun _ hforeign _ _ _ _ => loadInto_of_foreign hforeign,
    fun _ _ => directoryName_inj, version?_fileName, fun _ _ => fileName_inj⟩

/-- Digits in upper case are read. A directory of one byte that begins a letter of two is passed
over. -/
theorem name_codec_capitals :
    typeName? "C39C" = some "Ü" ∧ typeName? "C3" = none ∧
      loadInto ⟨["ledger"]⟩ NameTable.empty [("C3", .directory [])] = .ok NameTable.empty ∧
      directoryName "Shop.Model/Order" ≠ directoryName "Shop.Model_Order" ∧
      version? (fileName 4294967295) = some 4294967295 ∧ fileName 1 ≠ fileName 10 := by
  obtain ⟨hread, hnone, hpassed, hdirectory, hversion, hfile⟩ := name_codec
  have hcase : "C39C".toLower = directoryName "Ü" := by
    apply String.toList_injective
    rw [Text.Hex.toList_toLower]
    decide +kernel
  have hforeign : Foreign "C3" := by
    have hlower : "C3".toLower = String.ofList (Text.Hex.encode [0xc3]) := by
      rw [Text.Hex.toLower_eq_ofList_encode_iff]
      rfl
    exact .noText hlower (by decide)
  exact ⟨(hread "C39C" "Ü" (by decide)).mpr hcase, (hnone "C3").mpr hforeign,
    hpassed "C3" hforeign _ _ _ _, hdirectory.ne (by decide), hversion _, hfile.ne (by decide)⟩

end Ledger

end ShapeLedger
