import ShapeLedger.Binary64
import ShapeLedger.Json

/-!
The range of numbers that are kept before their use is known. Such a number
is brought to the form `significand · 10 ^ exponent`, where the significand
has as many leading digits as fit into sixty-four bits, and is refused if the
product of the two factors, each rounded to a binary number, is out of range.
-/

namespace ShapeLedger.Json.Number

/-- A significand that fits into sixty-four bits and a power of ten. -/
structure Scaled where
  significand : Nat
  exponent : Int
deriving DecidableEq

/-- Takes in the digits before the point. The first digit that does not fit
and all after it only raise the exponent. -/
def takeWhole (n : Nat) : List Char → Scaled
  | [] => ⟨n, 0⟩
  | d :: ds =>
    let m := n * 10 + (d.toNat - 0x30)
    if m < UInt64.size then takeWhole m ds else ⟨n, ds.length + 1⟩

/-- Takes in the digits after the point. Those after the first that does not
fit are left out. -/
def takeFraction (n : Scaled) : List Char → Scaled
  | [] => n
  | d :: ds =>
    let m := n.significand * 10 + (d.toNat - 0x30)
    if m < UInt64.size then takeFraction ⟨m, n.exponent - 1⟩ ds else n

def scaled (n : Number) : Scaled :=
  let s := takeFraction (takeWhole 0 n.whole) n.fraction
  ⟨s.significand, s.exponent + n.exponent.getD 0⟩

/-- Whether a number may be kept. -/
def inRange (n : Number) : Bool :=
  let s := n.scaled
  if s.significand = 0 ∨ s.exponent < 0 then true
  else if s.exponent > 308 then false
  else
    Binary64.nearest s.significand * Binary64.nearest (Nat.pow 10 s.exponent.toNat) <
      Binary64.overflow

end ShapeLedger.Json.Number
