import ShapeLedger.Json.Printer
import ShapeLedger.Json.Reader
import ShapeLedger.Proofs.ReadBack

/-!
Reading JSON text back. A value that is printed in a layout of white space is
read as itself: the reader passes over the white space, takes every number and
text as it was written, and stops where the value ends, whatever of the things
that may follow a value comes next. The budget of the reader is never used up,
since every call leaves the text of its own marks behind.
-/

namespace ShapeLedger.Json

open Text (Stopped stopped_nil stopped_cons)

mutual

/-- What a value is read as when it was printed. -/
def source : Plain → Source
  | .null => .null
  | .bool b => .bool b
  | .number n => .number (Number.ofNat n)
  | .text s => .text (some s)
  | .array vs => .array (sources vs)
  | .object fs => .object (sourceFields fs)

def sources : List Plain → List Source
  | [] => []
  | v :: vs => source v :: sources vs

def sourceFields : List (String × Plain) → List (Option String × Source)
  | [] => []
  | (key, v) :: fs => (some key, source v) :: sourceFields fs

end

/-- A layout that sets the parts of a value apart by white space only. -/
structure Layout.Spaced (l : Layout) : Prop where
  lineBreak : ∀ level, ∀ c ∈ l.lineBreak level, isSpace c = true
  colon : ∃ s, l.colon = ':' :: s ∧ ∀ c ∈ s, isSpace c = true

theorem spaced_pretty : Layout.pretty.Spaced := by
  refine ⟨fun level c hc => ?_, [' '], rfl, by simp [isSpace]⟩
  rcases List.mem_cons.mp hc with rfl | hc
  · rfl
  · rw [List.eq_of_mem_replicate hc]
    rfl

/-! ### White space -/

theorem skipSpace_append {s : List Char} (hs : ∀ c ∈ s, isSpace c = true) (t : List Char) :
    skipSpace (s ++ t) = skipSpace t :=
  List.dropWhile_append_of_pos hs

theorem skipSpace_cons {c : Char} (hc : isSpace c = false) (t : List Char) :
    skipSpace (c :: t) = c :: t := by
  rw [skipSpace, List.dropWhile_cons_of_neg (by simp [hc])]

theorem value?_append_of_space {s : List Char} (hs : ∀ c ∈ s, isSpace c = true) (fuel : Nat)
    (t : List Char) : value? fuel (s ++ t) = value? fuel t := by
  cases fuel with
  | zero => rw [value?, value?]
  | succ fuel => rw [value?, value?, skipSpace_append hs]

/-! ### Texts -/

theorem hexFour?_digits {n : Nat} (h : n < 0x100) :
    hexFour? '0' '0' (Text.Hex.digit (n / 16)) (Text.Hex.digit (n % 16)) = some n := by
  have hzero : Text.Hex.value? '0' = some 0 := rfl
  have hsum : ((0 * 16 + 0) * 16 + n / 16) * 16 + n % 16 = n := by omega
  simp only [hexFour?, hzero, Text.Hex.value?_digit (show n / 16 < 16 by omega),
    Text.Hex.value?_digit (show n % 16 < 16 by omega), Option.bind_eq_bind, Option.bind_some, hsum]
  rfl

theorem pieces?_escape (c : Char) (rest : List Char) :
    pieces? (escape c ++ rest) = (pieces? rest).map fun p => (Piece.char c :: p.1, p.2) := by
  have hletter {e : Char} (he : e ≠ 'u') (hc : escaped? e = some c) :
      pieces? ('\\' :: e :: rest) = (pieces? rest).map fun p => (Piece.char c :: p.1, p.2) := by
    rw [pieces?, hc]
    · cases pieces? rest <;> rfl
    · rintro a b c d rest' rfl
      exact absurd rfl he
  rw [escape]
  split_ifs with hquote hslash hback hfeed hline hreturn htab hcontrol
  · subst hquote
    exact hletter (by decide) rfl
  · subst hslash
    exact hletter (by decide) rfl
  · subst hback
    exact hletter (by decide) rfl
  · subst hfeed
    exact hletter (by decide) rfl
  · subst hline
    exact hletter (by decide) rfl
  · subst hreturn
    exact hletter (by decide) rfl
  · subst htab
    exact hletter (by decide) rfl
  · have hcode : Piece.ofCode c.toNat = .char c := by
      rw [Piece.ofCode, if_neg (by omega), Char.ofNat_toNat]
    simp only [List.cons_append, List.nil_append, pieces?,
      hexFour?_digits (show c.toNat < 0x100 by omega), Option.bind_eq_bind, Option.bind_some,
      hcode]
    cases pieces? rest <;> rfl
  · have hplain : ¬ (c.toNat < 0x20 ∨ c = '\\') := not_or.mpr ⟨hcontrol, hslash⟩
    rw [List.singleton_append, pieces?, if_neg hplain]
    · cases pieces? rest <;> rfl
    · exact fun h => hquote h
    · rintro a b c d rest' rfl
      exact absurd rfl hslash
    · rintro e rest' rfl
      exact absurd rfl hslash

theorem pieces?_flatMap_escape (s rest : List Char) :
    pieces? (s.flatMap escape ++ '"' :: rest) = some (s.map Piece.char, rest) := by
  induction s with
  | nil => rw [List.flatMap_nil, List.nil_append, pieces?, List.map_nil]
  | cons c s ih => rw [List.flatMap_cons, List.append_assoc, pieces?_escape, ih]; rfl

theorem joinHalves?_map_char (s : List Char) : joinHalves? (s.map Piece.char) = some s := by
  induction s with
  | nil => rfl
  | cons c s ih => rw [List.map_cons, joinHalves?, ih, Option.map_some]

/-- A text is read back behind its opening quote. -/
theorem text?_flatMap_escape (s : String) (rest : List Char) :
    text? (s.toList.flatMap escape ++ '"' :: rest) = some (some s, rest) := by
  rw [text?, pieces?_flatMap_escape]
  simp [joinHalves?_map_char]

/-! ### Numbers -/

/-- What may follow a value: nothing, a comma, a closing bracket or white space. -/
def followers : List Char := [',', ']', '}', ' ', '\t', '\n', '\r']

theorem mem_followers_of_isSpace {c : Char} (h : isSpace c = true) : c ∈ followers := by
  simp only [isSpace, Bool.or_eq_true, decide_eq_true_eq] at h
  rcases h with ((rfl | rfl) | rfl) | rfl <;> decide

theorem isDigit_of_mem_followers {c : Char} (h : c ∈ followers) : c.isDigit = false := by
  simp only [followers, List.mem_cons, List.not_mem_nil, or_false] at h
  rcases h with rfl | rfl | rfl | rfl | rfl | rfl | rfl <;> rfl

theorem digits?_toDigits (n : Nat) {rest : List Char} (hrest : Stopped followers rest) :
    digits? (Nat.toDigits 10 n ++ rest) = some (Nat.toDigits 10 n, rest) := by
  have hdigit : ∀ c ∈ Nat.toDigits 10 n, c.isDigit = true :=
    fun c hc => Nat.isDigit_of_mem_toDigits (by decide) (by decide) hc
  have hstop : ∀ c ∈ rest.head?, c.isDigit = false :=
    fun c hc => isDigit_of_mem_followers (hrest c hc)
  have htake : rest.takeWhile Char.isDigit = [] := by
    cases rest with
    | nil => rfl
    | cons c rest => simp [hstop c rfl]
  have hdrop : rest.dropWhile Char.isDigit = rest := by
    cases rest with
    | nil => rfl
    | cons c rest => simp [hstop c rfl]
  rw [digits?, List.takeWhile_append_of_pos hdigit, List.dropWhile_append_of_pos hdigit, htake,
    hdrop, List.append_nil]
  cases h : Nat.toDigits 10 n with
  | nil => exact absurd h Nat.toDigits_ne_nil
  | cons d ds => rfl

/-- Only zero begins with a zero. -/
theorem eq_zero_of_head?_toDigits {n : Nat} (h : (Nat.toDigits 10 n).head? = some '0') : n = 0 := by
  induction n using Nat.strongRecOn with
  | ind n ih =>
    rw [Nat.toDigits_eq_if (by decide)] at h
    split at h
    · rename_i hsmall
      have hdigits : ∀ m : Fin 10, [Nat.digitChar m].head? = some '0' → m = 0 := by decide
      have hzero := hdigits ⟨n, hsmall⟩ h
      exact congrArg Fin.val hzero
    · rename_i hlarge
      rw [List.head?_append_of_ne_nil _ Nat.toDigits_ne_nil] at h
      have hquotient := ih (n / 10) (by omega) h
      omega

theorem fraction?_of_stopped {rest : List Char} (h : Stopped followers rest) :
    fraction? rest = some ([], rest) := by
  cases rest with
  | nil => rfl
  | cons c rest =>
    rw [fraction?]
    rintro s ⟨rfl, -⟩
    exact absurd (stopped_cons.mp h) (by decide)

theorem exponent?_of_stopped {rest : List Char} (h : Stopped followers rest) :
    exponent? rest = some (none, rest) := by
  cases rest with
  | nil => rfl
  | cons c rest =>
    have hletter : ¬ (c = 'e' ∨ c = 'E') := by
      rintro (rfl | rfl) <;> exact absurd (stopped_cons.mp h) (by decide)
    rw [exponent?, if_neg hletter]

theorem number?_toDigits (n : Nat) {rest : List Char} (hrest : Stopped followers rest) :
    number? (Nat.toDigits 10 n ++ rest) = some (Number.ofNat n, rest) := by
  have hzero : ¬ ((Nat.toDigits 10 n).head? = some '0' ∧ (Nat.toDigits 10 n).length ≠ 1) := by
    rintro ⟨hhead, hlength⟩
    rw [eq_zero_of_head?_toDigits hhead] at hlength
    exact hlength rfl
  have hdigits := digits?_toDigits n hrest
  cases h : Nat.toDigits 10 n with
  | nil => exact absurd h Nat.toDigits_ne_nil
  | cons d ds =>
    have hd : d.isDigit = true :=
      Nat.isDigit_of_mem_toDigits (by decide) (by decide) (h ▸ List.mem_cons_self)
    have hsign : d ≠ '-' := by
      rintro rfl
      cases hd
    rw [h] at hdigits hzero
    rw [List.cons_append] at hdigits ⊢
    rw [number?]
    · simp only [hdigits, hzero, fraction?_of_stopped hrest, exponent?_of_stopped hrest,
        Option.bind_eq_bind, Option.bind_some, Number.ofNat, h, if_false]
      rfl
    · rintro s hs
      exact hsign (List.cons.inj hs).1

/-! ### Values -/

section

variable {l : Layout} {rest : List Char}

theorem length_print_pos (l : Layout) (level : Nat) (v : Plain) : 0 < (print l level v).length := by
  rw [List.length_pos_iff]
  cases v with
  | null => simp [print]
  | bool b => cases b <;> simp [print]
  | number n =>
    rw [print]
    exact Nat.toDigits_ne_nil
  | text s => simp [print, quote]
  | array vs => cases vs <;> simp [print]
  | object fs => cases fs <;> simp [print]

theorem stopped_lineBreak_append (hl : l.Spaced) (level : Nat) {c : Char} (hc : c ∈ followers) :
    Stopped followers (l.lineBreak level ++ c :: rest) := by
  have hspace := hl.lineBreak level
  cases h : l.lineBreak level with
  | nil => simpa using hc
  | cons d ds => simpa using mem_followers_of_isSpace (hspace d (h ▸ List.mem_cons_self))

theorem stopped_printItems (rest : List Char) (hl : l.Spaced) (level : Nat) (vs : List Plain) :
    Stopped followers (printItems l level vs ++ rest) := by
  cases vs with
  | nil =>
    rw [printItems, List.append_assoc]
    exact stopped_lineBreak_append hl level (by decide)
  | cons v vs =>
    rw [printItems]
    exact stopped_cons.mpr (by decide)

theorem stopped_printFields (rest : List Char) (hl : l.Spaced) (level : Nat)
    (fs : List (String × Plain)) :
    Stopped followers (printFields l level fs ++ rest) := by
  cases fs with
  | nil =>
    rw [printFields, List.append_assoc]
    exact stopped_lineBreak_append hl level (by decide)
  | cons f fs =>
    rw [printFields]
    exact stopped_cons.mpr (by decide)

theorem value?_of_digit {c : Char} (hc : c.isDigit = true) (fuel : Nat) (s : List Char) :
    value? (fuel + 1) (c :: s) = (number? (c :: s)).map fun p => (.number p.1, p.2) := by
  have hne {d : Char} (hd : d.isDigit = false) : c ≠ d := by
    rintro rfl
    rw [hc] at hd
    cases hd
  have hspace : isSpace c = false := by
    simp only [isSpace, Bool.or_eq_false_iff, decide_eq_false_iff_not]
    exact ⟨⟨⟨hne rfl, hne rfl⟩, hne rfl⟩, hne rfl⟩
  have hmark {d : Char} {t : List Char} (h : c :: s = d :: t) (hd : d.isDigit = false) : False :=
    hne hd (List.cons.inj h).1
  rw [value?, skipSpace_cons hspace]
  split
  · exact (hmark ‹_› rfl).elim
  · exact (hmark ‹_› rfl).elim
  · exact (hmark ‹_› rfl).elim
  · exact (hmark ‹_› rfl).elim
  · exact (hmark ‹_› rfl).elim
  · exact (hmark ‹_› rfl).elim
  · rfl

theorem skipSpace_printItems_nil (hl : l.Spaced) (level : Nat) :
    skipSpace (printItems l level [] ++ rest) = ']' :: rest := by
  rw [printItems, List.append_assoc, skipSpace_append (hl.lineBreak level)]
  exact skipSpace_cons rfl _

theorem skipSpace_printFields_nil (hl : l.Spaced) (level : Nat) :
    skipSpace (printFields l level [] ++ rest) = '}' :: rest := by
  rw [printFields, List.append_assoc, skipSpace_append (hl.lineBreak level)]
  exact skipSpace_cons rfl _

/-- A printed value does not begin with white space or with a bracket that closes one. -/
theorem exists_cons_toDigits (n : Nat) :
    ∃ d ds, Nat.toDigits 10 n = d :: ds ∧ d.isDigit = true := by
  cases h : Nat.toDigits 10 n with
  | nil => exact absurd h Nat.toDigits_ne_nil
  | cons d ds =>
    exact ⟨d, ds, rfl, Nat.isDigit_of_mem_toDigits (by decide) (by decide) (h ▸ List.mem_cons_self)⟩

theorem exists_cons_print (l : Layout) (level : Nat) (v : Plain) :
    ∃ c s, print l level v = c :: s ∧ isSpace c = false ∧ c ≠ ']' := by
  cases v with
  | null => exact ⟨_, _, rfl, rfl, by decide⟩
  | bool b => cases b <;> exact ⟨_, _, rfl, rfl, by decide⟩
  | number n =>
    obtain ⟨d, ds, h, hd⟩ := exists_cons_toDigits n
    refine ⟨d, ds, h, ?_, ?_⟩
    · cases hspace : isSpace d with
      | false => rfl
      | true =>
        rw [isDigit_of_mem_followers (mem_followers_of_isSpace hspace)] at hd
        cases hd
    · rintro rfl
      cases hd
  | text s => exact ⟨_, _, rfl, rfl, by decide⟩
  | array vs => cases vs <;> exact ⟨_, _, rfl, rfl, by decide⟩
  | object fs => cases fs <;> exact ⟨_, _, rfl, rfl, by decide⟩

theorem skipSpace_print (l : Layout) (level : Nat) (v : Plain) {space : List Char}
    (hspace : ∀ c ∈ space, isSpace c = true) (t : List Char) :
    skipSpace (space ++ (print l level v ++ t)) = print l level v ++ t := by
  obtain ⟨c, s, hv, hc, -⟩ := exists_cons_print l level v
  rw [skipSpace_append hspace, hv, List.cons_append, skipSpace_cons hc]

theorem value?_toDigits (fuel n : Nat) {rest : List Char} (hrest : Stopped followers rest) :
    value? (fuel + 1) (Nat.toDigits 10 n ++ rest) = some (source (.number n), rest) := by
  have hnumber := number?_toDigits n hrest
  obtain ⟨d, ds, h, hd⟩ := exists_cons_toDigits n
  rw [h, List.cons_append] at hnumber ⊢
  rw [value?_of_digit hd, hnumber]
  rfl

theorem value?_quote (fuel : Nat) (s : String) (rest : List Char) :
    value? (fuel + 1) (quote s ++ rest) = some (source (.text s), rest) := by
  rw [quote, List.cons_append, List.append_assoc, List.singleton_append, value?,
    skipSpace_cons rfl]
  simp only [text?_flatMap_escape]
  rfl

mutual

theorem value?_print (hl : l.Spaced) (level fuel : Nat) (v : Plain) {rest : List Char}
    (hfuel : 2 * (print l level v).length ≤ fuel) (hrest : Stopped followers rest) :
    value? fuel (print l level v ++ rest) = some (source v, rest) := by
  have hpos := length_print_pos l level v
  cases fuel with
  | zero => omega
  | succ fuel =>
    cases v with
    | null => rfl
    | bool b => cases b <;> rfl
    | number n => exact value?_toDigits fuel n hrest
    | text s => exact value?_quote fuel s rest
    | array vs =>
      cases vs with
      | nil => rfl
      | cons v vs =>
        obtain ⟨c, s, hv, -, hc⟩ := exists_cons_print l (level + 1) v
        have hspace := skipSpace_print l (level + 1) v (hl.lineBreak (level + 1))
          (printItems l level vs ++ rest)
        rw [print] at hfuel ⊢
        simp only [List.length_cons, List.length_append] at hfuel
        have hitems := items?_print hl level fuel v vs rest (List.forall_mem_nil _) (by omega)
        rw [hv, List.nil_append, List.cons_append] at hitems
        rw [List.cons_append, value?, skipSpace_cons rfl]
        simp only [List.append_assoc, hspace]
        rw [hv, List.cons_append]
        split
        · exact absurd (List.cons.inj ‹_›).1 hc
        · rw [hitems]
          rfl
    | object fs =>
      cases fs with
      | nil => rfl
      | cons f fs =>
        obtain ⟨key, v⟩ := f
        rw [print] at hfuel ⊢
        simp only [List.length_cons, List.length_append] at hfuel
        have hfields := fields?_print hl level fuel key v fs rest (List.forall_mem_nil _)
          (by omega)
        simp only [quote, List.cons_append, List.append_assoc, List.nil_append] at hfields
        rw [List.cons_append, value?, skipSpace_cons rfl]
        simp only [List.append_assoc, skipSpace_append (hl.lineBreak (level + 1)), quote,
          List.cons_append, List.nil_append, skipSpace_cons (c := '"') rfl]
        split
        · exact absurd (List.cons.inj ‹_›).1 (by decide)
        · rw [hfields]
          rfl
termination_by fuel

theorem items?_print (hl : l.Spaced) (level fuel : Nat) (v : Plain) (vs : List Plain)
    (rest : List Char) {space : List Char} (hspace : ∀ c ∈ space, isSpace c = true)
    (hfuel : 2 * ((print l (level + 1) v).length + (printItems l level vs).length) ≤ fuel) :
    items? fuel (space ++ (print l (level + 1) v ++ (printItems l level vs ++ rest))) =
      some (source v :: sources vs, rest) := by
  have hpos := length_print_pos l (level + 1) v
  cases fuel with
  | zero => omega
  | succ fuel =>
    have hend : 0 < (printItems l level vs).length := by cases vs <;> simp [printItems]
    have hvalue := value?_print hl (level + 1) fuel v (by omega)
      (stopped_printItems rest hl level vs)
    rw [items?, value?_append_of_space hspace, hvalue]
    cases vs with
    | nil =>
      simp only [Option.bind_eq_bind, Option.bind_some, skipSpace_printItems_nil hl]
      rfl
    | cons w ws =>
      simp only [printItems, List.length_cons, List.length_append] at hfuel
      have hitems := items?_print hl level fuel w ws rest (hl.lineBreak (level + 1)) (by omega)
      simp only [Option.bind_eq_bind, Option.bind_some, printItems, List.cons_append,
        List.append_assoc, skipSpace_cons (c := ',') rfl, hitems]
      rfl
termination_by fuel

theorem fields?_print (hl : l.Spaced) (level fuel : Nat) (key : String) (v : Plain)
    (fs : List (String × Plain)) (rest : List Char) {space : List Char}
    (hspace : ∀ c ∈ space, isSpace c = true)
    (hfuel : 2 * ((print l (level + 1) v).length + (printFields l level fs).length) ≤ fuel) :
    fields? fuel (space ++ (quote key ++ (l.colon ++
      (print l (level + 1) v ++ (printFields l level fs ++ rest))))) =
      some ((some key, source v) :: sourceFields fs, rest) := by
  have hpos := length_print_pos l (level + 1) v
  obtain ⟨colon, hcolon, hcolonSpace⟩ := hl.colon
  cases fuel with
  | zero => omega
  | succ fuel =>
    have hend : 0 < (printFields l level fs).length := by
      cases fs <;> simp [printFields]
    have hvalue := value?_print hl (level + 1) fuel v (by omega)
      (stopped_printFields rest hl level fs)
    rw [fields?, skipSpace_append hspace, quote, List.cons_append, skipSpace_cons rfl]
    simp only [List.append_assoc, List.nil_append, text?_flatMap_escape, hcolon,
      List.cons_append, Option.bind_eq_bind, Option.bind_some, skipSpace_cons (c := ':') rfl,
      value?_append_of_space hcolonSpace, hvalue]
    cases fs with
    | nil =>
      simp only [skipSpace_printFields_nil hl]
      rfl
    | cons f fs =>
      obtain ⟨key', w⟩ := f
      simp only [printFields, List.length_cons, List.length_append] at hfuel
      have hfields := fields?_print hl level fuel key' w fs rest (hl.lineBreak (level + 1))
        (by omega)
      simp only [printFields, List.cons_append, List.append_assoc, skipSpace_cons (c := ',') rfl,
        hfields]
      rfl
termination_by fuel

end

end

/-- What was written in the layout of many lines is read as itself. -/
theorem read_pretty (v : Plain) : read v.pretty = some (source v) := by
  have hvalue := value?_print spaced_pretty 0 (2 * (print .pretty 0 v).length + 2) v (by omega)
    (stopped_nil followers)
  rw [List.append_nil] at hvalue
  simp only [read, Plain.pretty, String.toList_ofList, hvalue]
  rfl

end ShapeLedger.Json
