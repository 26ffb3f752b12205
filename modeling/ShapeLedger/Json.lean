/-!
JSON values. Numbers and texts are left open: a value that is read keeps both
as they are written, a value that is written holds natural numbers and texts.
-/

namespace ShapeLedger

/-- A JSON value with numbers of type `ν` and texts of type `σ`. -/
inductive Json (ν σ : Type) where
  | null
  | bool (b : Bool)
  | number (n : ν)
  | text (s : σ)
  | array (items : List (Json ν σ))
  /-- The fields in written order; a key may be repeated. -/
  | object (fields : List (σ × Json ν σ))

namespace Json

/-- A number as it is written, with the digits of its parts. -/
structure Number where
  negative : Bool
  whole : List Char
  /-- The digits after the point; there are none if there is no point. -/
  fraction : List Char
  exponent : Option Int
deriving DecidableEq

/-- A value as it is read. A text that pairs its surrogate escapes wrongly
stands for no text. -/
abbrev Source := Json Number (Option String)

/-- A value to be written. -/
abbrev Plain := Json Nat String

/-- The value of a number that is written with digits alone. -/
def Number.natural? (n : Number) : Option Nat :=
  if n.negative = false ∧ n.fraction = [] ∧ n.exponent = none then
    some (Nat.ofDigitChars 10 n.whole 0)
  else none

/-- A natural number as it is written. -/
def Number.ofNat (n : Nat) : Number := ⟨false, Nat.toDigits 10 n, [], none⟩

theorem Number.natural?_ofNat (n : Nat) : (ofNat n).natural? = some n := by
  simp [natural?, ofNat, Nat.ofDigitChars_ten_toDigits]

end Json

end ShapeLedger
