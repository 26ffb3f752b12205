import ShapeLedger.Toml.Number
import ShapeLedger.Toml.Text

/-!
Reading TOML documents, statement by statement.
-/

namespace ShapeLedger.Toml

/-- The most parts that a dotted key may have. -/
def maxKeyParts : Nat := 79

/-- How many arrays and tables in braces may be open at once. -/
def maxOpen : Nat := 79

def skipGap (s : List Char) : List Char := s.dropWhile isGap

/-- Passes over blanks, line breaks and comments. A character that may not
stand in a comment ends the run. -/
def skipFiller (inComment : Bool) : List Char → List Char
  | [] => []
  | '\n' :: s => skipFiller false s
  | '\r' :: '\n' :: s => skipFiller false s
  | c :: s =>
    if (inComment && isPlain c) || isGap c then skipFiller inComment s
    else if !inComment && c = '#' then skipFiller true s
    else c :: s

def isBare (c : Char) : Bool := c.isAlphanum || c = '_' || c = '-'

/-- One part of a key: bare or in quotes. -/
def keyPart? : List Char → Option (String × List Char)
  | '"' :: s => (basic? s).map fun (t, s) => (String.ofList t, s)
  | '\'' :: s => (literal? s).map fun (t, s) => (String.ofList t, s)
  | s =>
    match s.takeWhile isBare with
    | [] => none
    | t => some (String.ofList t, s.dropWhile isBare)

/-- A key of at most `parts` parts with dots between them, and the blanks
around it. -/
def key? (parts : Nat) (s : List Char) : Option (List String × List Char) :=
  match parts with
  | 0 => none
  | parts + 1 =>
    (keyPart? (skipGap s)).bind fun (part, s) =>
      match skipGap s with
      | '.' :: s => (key? parts s).map fun (rest, s) => (part :: rest, s)
      | s => some ([part], s)

mutual

/-- A value and what follows it. `room` is how many more arrays and tables may
be opened; `fuel` of twice the length is never used up. -/
def value? (fuel room : Nat) (s : List Char) : Option (Node × List Char) :=
  match fuel with
  | 0 => none
  | fuel + 1 =>
    match s with
    | '"' :: '"' :: '"' :: s =>
      (multiBasic? (skipFirstBreak s)).map fun (t, s) => (.text (String.ofList t), s)
    | '"' :: s => (basic? s).map fun (t, s) => (.text (String.ofList t), s)
    | '\'' :: '\'' :: '\'' :: s =>
      (multiLiteral? (skipFirstBreak s)).map fun (t, s) => (.text (String.ofList t), s)
    | '\'' :: s => (literal? s).map fun (t, s) => (.text (String.ofList t), s)
    | '[' :: s =>
      if room = 0 then none
      else (items? fuel (room - 1) s).map fun (vs, s) => (.array vs, s)
    | '{' :: s =>
      if room = 0 then none
      else
        match skipGap s with
        | '}' :: s => some (.table .inline [], s)
        | s => do
          let (ps, s) ← pairs? fuel (room - 1) s
          let entries ← Entries.ofPairs? ps
          return (.table .inline entries, s)
    | 't' :: 'r' :: 'u' :: 'e' :: s => some (.boolean, s)
    | 'f' :: 'a' :: 'l' :: 's' :: 'e' :: s => some (.boolean, s)
    | s => number? s

/-- The rest of an array before an item or the closing bracket. -/
def items? (fuel room : Nat) (s : List Char) : Option (List Node × List Char) :=
  match fuel with
  | 0 => none
  | fuel + 1 =>
    match skipFiller false s with
    | ']' :: s => some ([], s)
    | s => do
      let (v, s) ← value? fuel room s
      match skipFiller false s with
      | ',' :: s => (items? fuel room s).map fun (vs, s) => (v :: vs, s)
      | ']' :: s => some ([v], s)
      | _ => none

/-- The rest of a table in braces before a key. -/
def pairs? (fuel room : Nat) (s : List Char) :
    Option (List (List String × Node) × List Char) :=
  match fuel with
  | 0 => none
  | fuel + 1 => do
    let (path, s) ← key? maxKeyParts s
    let s ← after? '=' s
    let (v, s) ← value? fuel room (skipGap s)
    match skipGap s with
    | ',' :: s => (pairs? fuel room s).map fun (ps, s) => ((path, v) :: ps, s)
    | '}' :: s => some ([(path, v)], s)
    | _ => none

end

/-- What follows the end of a line, before which a comment may stand. -/
def lineEnd? (s : List Char) : Option (List Char) :=
  let s := match skipGap s with
    | '#' :: s => s.dropWhile isPlain
    | s => s
  match s with
  | [] => some []
  | s => newline? s

/-- A statement that is not blank, without the end of its line. -/
def statement? : List Char → Option (Statement × List Char)
  | '[' :: '[' :: s => do
    let (path, s) ← key? maxKeyParts s
    let s ← after? ']' s
    let s ← after? ']' s
    return (.element path, s)
  | '[' :: s => do
    let (path, s) ← key? maxKeyParts s
    let s ← after? ']' s
    return (.header path, s)
  | s => do
    let (path, s) ← key? maxKeyParts s
    let s ← after? '=' s
    let s := skipGap s
    let (v, s) ← value? (2 * s.length + 2) maxOpen s
    return (.assign path v, s)

/-- The statements of at most `lines` lines. -/
def statements? (lines : Nat) (s : List Char) : Option (List Statement) :=
  match lines with
  | 0 => none
  | lines + 1 =>
    match skipGap s with
    | [] => some []
    | c :: s =>
      if c = '#' ∨ (newline? (c :: s)).isSome then
        (lineEnd? (c :: s)).bind (statements? lines)
      else do
        let (statement, s) ← statement? (c :: s)
        let rest ← (lineEnd? s).bind (statements? lines)
        return statement :: rest

/-- The entries of a document, before which a byte order mark may stand. -/
def read (s : String) : Option Entries :=
  let s := match s.toList with
    | '\ufeff' :: s => s
    | s => s
  (statements? (s.length + 1) s).bind fun ss =>
    (Document.ofStatements? ss).map Document.entries

end ShapeLedger.Toml
