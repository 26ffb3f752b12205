import ShapeLedger.Binary64
import ShapeLedger.Toml
import ShapeLedger.Text.Hex

/-!
Numbers and dates in TOML. Digits may be set apart by single underscores. An
integer must fit into sixty-four bits with a sign; a number with a fraction or
an exponent must not exceed the range of binary numbers with an exponent of
eleven bits, and dates and times must exist.
-/

namespace ShapeLedger.Toml

/-- The digits that continue a number, each perhaps after an underscore. -/
def moreDigits (isDigit : Char → Bool) : List Char → List Char × List Char
  | '_' :: d :: s =>
    if isDigit d then
      let (ds, rest) := moreDigits isDigit s
      (d :: ds, rest)
    else ([], '_' :: d :: s)
  | d :: s =>
    if isDigit d then
      let (ds, rest) := moreDigits isDigit s
      (d :: ds, rest)
    else ([], d :: s)
  | [] => ([], [])

/-- One or more digits. -/
def digits? (isDigit : Char → Bool) : List Char → Option (List Char × List Char)
  | d :: s =>
    if isDigit d then
      let (ds, rest) := moreDigits isDigit s
      some (d :: ds, rest)
    else none
  | [] => none

/-- An optional sign, and whether it is a minus. -/
def sign : List Char → Bool × List Char
  | '-' :: s => (true, s)
  | '+' :: s => (false, s)
  | s => (false, s)

/-- Decimal digits without superfluous zeros. -/
def whole? : List Char → Option (List Char × List Char)
  | '0' :: s => some (['0'], s)
  | s => digits? Char.isDigit s

/-- The value of digits in a base of at most sixteen. -/
def digitsValue (base : Nat) (ds : List Char) : Nat :=
  ds.foldl (fun n d => base * n + (Text.Hex.value? d).getD 0) 0

def isDigitBelow (base : Nat) (c : Char) : Bool := (Text.Hex.value? c).any (· < base)

/-- Integers lie between `-2⁶³` and `2⁶³ - 1`. -/
def integerBound : Nat := 1 <<< 63

/-- An integer after the letter of its base. -/
def based? (base : Nat) (s : List Char) : Option (Node × List Char) :=
  (digits? (isDigitBelow base) s).bind fun (ds, rest) =>
    let n := digitsValue base ds
    if n < integerBound then some (.integer n, rest) else none

def decimal? (s : List Char) : Option (Node × List Char) :=
  let (negative, s) := sign s
  (whole? s).bind fun (ds, rest) =>
    let n : Int := Nat.ofDigitChars 10 ds 0
    let n := if negative then -n else n
    if -integerBound ≤ n ∧ n < integerBound then some (.integer n, rest) else none

def integer? : List Char → Option (Node × List Char)
  | '0' :: 'x' :: s => based? 16 s
  | '0' :: 'o' :: s => based? 8 s
  | '0' :: 'b' :: s => based? 2 s
  | s => decimal? s

/-- The power of ten after the letter `e`. -/
def exponent? : List Char → Option (Int × List Char)
  | c :: s =>
    if c = 'e' ∨ c = 'E' then
      let (negative, s) := sign s
      (digits? Char.isDigit s).map fun (ds, rest) =>
        let n : Int := Nat.ofDigitChars 10 ds 0
        (if negative then -n else n, rest)
    else none
  | [] => none

/-- Whether `n · 10 ^ exponent` is rounded to a binary number in range. Its
size decides, unless it has as many digits as the bound. -/
def inRange (n : Nat) (exponent : Int) : Bool :=
  let size := (Nat.toDigits 10 n).length + exponent
  if n = 0 ∨ size < 309 then true
  else if 309 < size then false
  else
    n * Nat.pow 10 exponent.toNat < Binary64.overflow * Nat.pow 10 (-exponent).toNat

/-- A decimal number with a fraction, an exponent or both. A negative number
has no bound. -/
def fractional? (s : List Char) : Option (Node × List Char) := do
  let (negative, s) := sign s
  let (ds, s) ← whole? s
  let (fs, s) ← match s with
    | '.' :: s => digits? Char.isDigit s
    | s => some ([], s)
  let (e, rest) ← match exponent? s with
    | some r => some r
    | none => if fs.isEmpty then none else some (0, s)
  if negative ∨ inRange (Nat.ofDigitChars 10 (ds ++ fs) 0) (e - fs.length) then
    return (.float, rest)
  else none

/-- Infinity and the undefined number. -/
def special? (s : List Char) : Option (Node × List Char) :=
  match (sign s).2 with
  | 'i' :: 'n' :: 'f' :: rest => some (.float, rest)
  | 'n' :: 'a' :: 'n' :: rest => some (.float, rest)
  | _ => none

/-- A number of exactly `n` decimal digits. -/
def fixedDigits? (n : Nat) (s : List Char) : Option (Nat × List Char) :=
  if (s.take n).length = n ∧ (s.take n).all Char.isDigit then
    some (Nat.ofDigitChars 10 (s.take n) 0, s.drop n)
  else none

def daysIn (year month : Nat) : Nat :=
  if month = 2 then
    if year % 4 = 0 ∧ (year % 100 ≠ 0 ∨ year % 400 = 0) then 29 else 28
  else if month = 4 ∨ month = 6 ∨ month = 9 ∨ month = 11 then 30
  else 31

/-- What follows the character `c`. -/
def after? (c : Char) : List Char → Option (List Char)
  | d :: s => if d = c then some s else none
  | [] => none

/-- What follows a date. -/
def date? (s : List Char) : Option (List Char) := do
  let (year, s) ← fixedDigits? 4 s
  let s ← after? '-' s
  let (month, s) ← fixedDigits? 2 s
  let s ← after? '-' s
  let (day, s) ← fixedDigits? 2 s
  if 1 ≤ month ∧ month ≤ 12 ∧ 1 ≤ day ∧ day ≤ daysIn year month then some s else none

/-- What follows a time of day. Its seconds may have a fraction. -/
def time? (s : List Char) : Option (List Char) := do
  let (hour, s) ← fixedDigits? 2 s
  let s ← after? ':' s
  let (minute, s) ← fixedDigits? 2 s
  let s ← after? ':' s
  let (second, s) ← fixedDigits? 2 s
  if hour ≤ 23 ∧ minute ≤ 59 ∧ second ≤ 60 then
    match s with
    | '.' :: d :: t => some (if d.isDigit then t.dropWhile Char.isDigit else s)
    | _ => some s
  else none

/-- What follows an offset from universal time, if there is one. -/
def offset? (s : List Char) : Option (List Char) :=
  match s with
  | [] => none
  | c :: t =>
    if c = 'Z' ∨ c = 'z' then some t
    else if c = '+' ∨ c = '-' then do
      let (hour, t) ← fixedDigits? 2 t
      let t ← after? ':' t
      let (minute, t) ← fixedDigits? 2 t
      if hour ≤ 23 ∧ minute ≤ 59 then some t else none
    else none

/-- A date, a date with a time, or a time. Only a time with a date may have an
offset. -/
def dateTime? (s : List Char) : Option (Node × List Char) :=
  match date? s with
  | none => (time? s).map (.dateTime, ·)
  | some s =>
    match s with
    | [] => some (.dateTime, [])
    | c :: t =>
      if c = 'T' ∨ c = 't' ∨ c = ' ' then
        match time? t with
        | none => some (.dateTime, s)
        | some t => some (.dateTime, (offset? t).getD t)
      else some (.dateTime, s)

def number? (s : List Char) : Option (Node × List Char) :=
  dateTime? s <|> fractional? s <|> integer? s <|> special? s

end ShapeLedger.Toml
