import ShapeLedger.Text.Hex

/-!
Texts in TOML: in double quotes with escapes or in single quotes without, on
one line or, between tripled quotes, on several. Each reader begins after the
opening quotes and also returns what follows the closing ones.
-/

namespace ShapeLedger.Toml

/-- Characters that may stand for themselves: all but control characters, of
which only the tab is allowed. -/
def isPlain (c : Char) : Bool := c = '\t' || (0x20 ≤ c.toNat && c.toNat ≠ 0x7f)

def isGap (c : Char) : Bool := c = ' ' || c = '\t'

/-- What follows a line break, if there is one. -/
def newline? : List Char → Option (List Char)
  | '\n' :: s => some s
  | '\r' :: '\n' :: s => some s
  | _ => none

/-- Passes over blanks and line breaks. -/
def skipLines : List Char → List Char
  | [] => []
  | '\r' :: '\n' :: s => skipLines s
  | c :: s => if isGap c ∨ c = '\n' then skipLines s else c :: s

/-- The first line break of a text that begins with one does not count. -/
def skipFirstBreak (s : List Char) : List Char := (newline? s).getD s

/-- The value of hexadecimal digits, if all are. -/
def hexNumber? (ds : List Char) : Option Nat :=
  ds.foldlM (fun n d => (Text.Hex.value? d).map (16 * n + ·)) 0

/-- The character whose code point the next `n` digits give. -/
def codePoint? (n : Nat) (s : List Char) : Option (Char × List Char) :=
  if (s.take n).length = n then
    (hexNumber? (s.take n)).bind fun v =>
      if v.isValidChar then some (Char.ofNat v, s.drop n) else none
  else none

def escapedLetter? : Char → Option Char
  | 'b' => some '\x08'
  | 't' => some '\t'
  | 'n' => some '\n'
  | 'f' => some '\x0c'
  | 'r' => some '\r'
  | '"' => some '"'
  | '\\' => some '\\'
  | _ => none

/-- The character that an escape stands for, after its backslash. -/
def escape? : List Char → Option (Char × List Char)
  | [] => none
  | c :: s =>
    if c = 'u' then codePoint? 4 s
    else if c = 'U' then codePoint? 8 s
    else (escapedLetter? c).map (·, s)

theorem length_codePoint? {n : Nat} {s rest : List Char} {c : Char}
    (h : codePoint? n s = some (c, rest)) : rest.length ≤ s.length := by
  unfold codePoint? at h
  split at h
  · obtain ⟨v, -, hv⟩ := Option.bind_eq_some_iff.mp h
    split at hv
    · cases hv
      simp
    · cases hv
  · cases h

theorem length_escape? {s rest : List Char} {c : Char} (h : escape? s = some (c, rest)) :
    rest.length < s.length := by
  cases s with
  | nil => cases h
  | cons a s =>
    simp only [escape?] at h
    split at h
    · exact Nat.lt_succ_of_le (length_codePoint? h)
    · split at h
      · exact Nat.lt_succ_of_le (length_codePoint? h)
      · obtain ⟨x, -, hx⟩ := Option.map_eq_some_iff.mp h
        cases hx
        simp

theorem length_skipLines (s : List Char) : (skipLines s).length ≤ s.length := by
  fun_induction skipLines s with
  | case1 => exact Nat.le_refl _
  | case2 s ih => exact Nat.le_trans ih (by simp; omega)
  | case3 c s _ _ ih => exact Nat.le_trans ih (by simp)
  | case4 => exact Nat.le_refl _

/-- A text in double quotes. -/
def basic? : List Char → Option (List Char × List Char)
  | [] => none
  | c :: s =>
    if c = '"' then some ([], s)
    else if c = '\\' then
      match _h : escape? s with
      | none => none
      | some (e, s') => (basic? s').map fun (t, s) => (e :: t, s)
    else if isPlain c then (basic? s).map fun (t, s) => (c :: t, s)
    else none
termination_by s => s.length
decreasing_by
  · have := length_escape? _h
    simp only [List.length_cons]
    omega
  · simp

/-- Up to two quotes may precede the three that close a text. -/
def closing (q : Char) : List Char → List Char × List Char
  | a :: b :: s =>
    if a = q then (if b = q then ([q, q], s) else ([q], b :: s)) else ([], a :: b :: s)
  | [a] => if a = q then ([q], []) else ([], [a])
  | [] => ([], [])

/-- A text between tripled double quotes. A backslash at the end of a line
joins it to the next character that is not blank. -/
def multiBasic? (s : List Char) : Option (List Char × List Char) :=
  match s with
  | [] => none
  | '"' :: '"' :: '"' :: s => some (closing '"' s)
  | '\r' :: '\n' :: s => (multiBasic? s).map fun (t, s) => ('\n' :: t, s)
  | c :: s =>
    if c = '\\' then
      if (newline? (s.dropWhile isGap)).isSome then multiBasic? (skipLines s)
      else
        match _h : escape? s with
        | none => none
        | some (e, s') => (multiBasic? s').map fun (t, s) => (e :: t, s)
    else if isPlain c ∨ c = '\n' then (multiBasic? s).map fun (t, s) => (c :: t, s)
    else none
termination_by s.length
decreasing_by
  · simp only [List.length_cons]
    omega
  · exact Nat.lt_succ_of_le (length_skipLines s)
  · have := length_escape? _h
    simp only [List.length_cons]
    omega
  · simp

/-- A text in single quotes. -/
def literal? : List Char → Option (List Char × List Char)
  | [] => none
  | c :: s =>
    if c = '\'' then some ([], s)
    else if isPlain c then (literal? s).map fun (t, s) => (c :: t, s)
    else none

/-- A text between tripled single quotes. -/
def multiLiteral? : List Char → Option (List Char × List Char)
  | [] => none
  | '\'' :: '\'' :: '\'' :: s => some (closing '\'' s)
  | '\r' :: '\n' :: s => (multiLiteral? s).map fun (t, s) => ('\n' :: t, s)
  | c :: s =>
    if isPlain c ∨ c = '\n' then (multiLiteral? s).map fun (t, s) => (c :: t, s)
    else none

end ShapeLedger.Toml
