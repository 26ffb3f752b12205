import ShapeLedger.Json
import ShapeLedger.Text.Hex

/-!
Reading JSON text. The grammar is followed strictly: no comments, no trailing
commas, no superfluous zeros, no control characters in texts, and nothing but
white space around the value.
-/

namespace ShapeLedger.Json

def isSpace (c : Char) : Bool := c = ' ' || c = '\t' || c = '\n' || c = '\r'

def skipSpace (s : List Char) : List Char := s.dropWhile isSpace

/-- What one character or escape of a text stands for: a character, or one
half of a surrogate pair. -/
inductive Piece where
  | char (c : Char)
  | half (code : Nat)
deriving DecidableEq

/-- A code unit is a half if it lies in the surrogate range. -/
def Piece.ofCode (n : Nat) : Piece :=
  if 0xd800 ≤ n ∧ n < 0xe000 then .half n else .char (Char.ofNat n)

/-- The number that four hexadecimal digits stand for. -/
def hexFour? (a b c d : Char) : Option Nat := do
  let w ← Text.Hex.value? a
  let x ← Text.Hex.value? b
  let y ← Text.Hex.value? c
  let z ← Text.Hex.value? d
  return ((w * 16 + x) * 16 + y) * 16 + z

/-- The character that a letter after a backslash stands for. -/
def escaped? : Char → Option Char
  | '"' => some '"'
  | '\\' => some '\\'
  | '/' => some '/'
  | 'b' => some '\x08'
  | 'f' => some '\x0c'
  | 'n' => some '\n'
  | 'r' => some '\r'
  | 't' => some '\t'
  | _ => none

/-- The pieces of a text up to its closing quote, and what follows it. -/
def pieces? : List Char → Option (List Piece × List Char)
  | [] => none
  | '"' :: rest => some ([], rest)
  | '\\' :: 'u' :: a :: b :: c :: d :: rest => do
    let n ← hexFour? a b c d
    let (ps, rest) ← pieces? rest
    return (.ofCode n :: ps, rest)
  | '\\' :: e :: rest => do
    let c ← escaped? e
    let (ps, rest) ← pieces? rest
    return (.char c :: ps, rest)
  | c :: rest =>
    if c.toNat < 0x20 ∨ c = '\\' then none
    else do
      let (ps, rest) ← pieces? rest
      return (.char c :: ps, rest)

/-- The characters of a list of pieces, if each first half of a surrogate pair
is followed by a second half and there are no other halves. -/
def joinHalves? : List Piece → Option (List Char)
  | [] => some []
  | .char c :: ps => (joinHalves? ps).map (c :: ·)
  | .half high :: .half low :: ps =>
    if high < 0xdc00 ∧ 0xdc00 ≤ low then
      (joinHalves? ps).map
        (Char.ofNat (0x10000 + (high - 0xd800) * 0x400 + (low - 0xdc00)) :: ·)
    else none
  | .half _ :: _ => none

/-- A text after its opening quote. -/
def text? (s : List Char) : Option (Option String × List Char) :=
  (pieces? s).map fun (ps, rest) => ((joinHalves? ps).map String.ofList, rest)

/-- One or more digits. -/
def digits? (s : List Char) : Option (List Char × List Char) :=
  match s.takeWhile Char.isDigit with
  | [] => none
  | d :: ds => some (d :: ds, s.dropWhile Char.isDigit)

/-- The digits after a point, if there is a point. -/
def fraction? : List Char → Option (List Char × List Char)
  | '.' :: s => digits? s
  | s => some ([], s)

/-- An optional sign. -/
def sign : List Char → Bool × List Char
  | '-' :: s => (true, s)
  | '+' :: s => (false, s)
  | s => (false, s)

/-- The power of ten after the letter `e`, if there is one. -/
def exponent? : List Char → Option (Option Int × List Char)
  | c :: s =>
    if c = 'e' ∨ c = 'E' then do
      let (negative, s) := sign s
      let (ds, s) ← digits? s
      let n : Int := Nat.ofDigitChars 10 ds 0
      return (some (if negative then -n else n), s)
    else some (none, c :: s)
  | [] => some (none, [])

def number? (s : List Char) : Option (Number × List Char) := do
  let (negative, s) := match s with
    | '-' :: s => (true, s)
    | s => (false, s)
  let (whole, s) ← digits? s
  if whole.head? = some '0' ∧ whole.length ≠ 1 then none
  else
    let (fraction, s) ← fraction? s
    let (exponent, s) ← exponent? s
    return (⟨negative, whole, fraction, exponent⟩, s)

mutual

/-- A value and what follows it. Every call that does not fail on the spot
consumes a character or is followed by one that does, so `fuel` of twice the
length is never used up. -/
def value? (fuel : Nat) (s : List Char) : Option (Source × List Char) :=
  match fuel with
  | 0 => none
  | fuel + 1 =>
    match skipSpace s with
    | '{' :: s =>
      match skipSpace s with
      | '}' :: s => some (.object [], s)
      | s => (fields? fuel s).map fun (fs, s) => (.object fs, s)
    | '[' :: s =>
      match skipSpace s with
      | ']' :: s => some (.array [], s)
      | s => (items? fuel s).map fun (vs, s) => (.array vs, s)
    | '"' :: s => (text? s).map fun (t, s) => (.text t, s)
    | 'n' :: 'u' :: 'l' :: 'l' :: s => some (.null, s)
    | 't' :: 'r' :: 'u' :: 'e' :: s => some (.bool true, s)
    | 'f' :: 'a' :: 'l' :: 's' :: 'e' :: s => some (.bool false, s)
    | s => (number? s).map fun (n, s) => (.number n, s)

/-- The items of an array that has some, up to its closing bracket. -/
def items? (fuel : Nat) (s : List Char) : Option (List Source × List Char) :=
  match fuel with
  | 0 => none
  | fuel + 1 => do
    let (v, s) ← value? fuel s
    match skipSpace s with
    | ',' :: s => (items? fuel s).map fun (vs, s) => (v :: vs, s)
    | ']' :: s => some ([v], s)
    | _ => none

/-- The fields of an object that has some, up to its closing brace. -/
def fields? (fuel : Nat) (s : List Char) : Option (List (Option String × Source) × List Char) :=
  match fuel with
  | 0 => none
  | fuel + 1 =>
    match skipSpace s with
    | '"' :: s => do
      let (key, s) ← text? s
      match skipSpace s with
      | ':' :: s =>
        let (v, s) ← value? fuel s
        match skipSpace s with
        | ',' :: s => (fields? fuel s).map fun (fs, s) => ((key, v) :: fs, s)
        | '}' :: s => some ([(key, v)], s)
        | _ => none
      | _ => none
    | _ => none

end

/-- The value that a whole text stands for. -/
def read (s : String) : Option Source :=
  let cs := s.toList
  match value? (2 * cs.length + 2) cs with
  | some (v, rest) => if (skipSpace rest).isEmpty then some v else none
  | none => none

end ShapeLedger.Json
