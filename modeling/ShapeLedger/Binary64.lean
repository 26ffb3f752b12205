/-!
The range of binary floating-point numbers with fifty-three digits and an
exponent of eleven bits, as far as natural numbers show it.
-/

namespace ShapeLedger.Binary64

/-- The middle between the largest number and what the next one would be.
From here on a number is rounded out of range. -/
def overflow : Nat := (1 <<< 1024) - (1 <<< 970)

/-- The nearest number with at most fifty-three binary digits before its
zeros; of two the one whose last digit is even. -/
def nearest (n : Nat) : Nat :=
  let unit := 1 <<< (n.log2 + 1 - 53)
  let down := n / unit
  let rest := n % unit
  if 2 * rest < unit ∨ (2 * rest = unit ∧ down % 2 = 0) then down * unit
  else (down + 1) * unit

end ShapeLedger.Binary64
