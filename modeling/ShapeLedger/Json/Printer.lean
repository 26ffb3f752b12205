import ShapeLedger.Json
import ShapeLedger.Text.Hex

/-!
Writing JSON text, either in one line without spaces or with one item or field
a line and two spaces for each level. An empty array or object is always
written without a line break.
-/

namespace ShapeLedger.Json

/-- How a character is written inside a text: quotes, backslashes and control
characters are escaped, with a letter where there is one. -/
def escape (c : Char) : List Char :=
  if c = '"' then ['\\', '"']
  else if c = '\\' then ['\\', '\\']
  else if c = '\x08' then ['\\', 'b']
  else if c = '\x0c' then ['\\', 'f']
  else if c = '\n' then ['\\', 'n']
  else if c = '\r' then ['\\', 'r']
  else if c = '\t' then ['\\', 't']
  else if c.toNat < 0x20 then
    ['\\', 'u', '0', '0', Text.Hex.digit (c.toNat / 16), Text.Hex.digit (c.toNat % 16)]
  else [c]

def quote (s : String) : List Char := '"' :: (s.toList.flatMap escape ++ ['"'])

/-- How the parts of an array or object are set apart. -/
structure Layout where
  /-- What precedes each part and the closing bracket at a level. -/
  lineBreak : Nat → List Char
  /-- What stands between a key and its value. -/
  colon : List Char

def Layout.compact : Layout := ⟨fun _ => [], [':']⟩

def Layout.pretty : Layout := ⟨fun level => '\n' :: List.replicate (2 * level) ' ', [':', ' ']⟩

mutual

/-- A value whose first line stands at `level`. -/
def print (layout : Layout) (level : Nat) : Plain → List Char
  | .null => "null".toList
  | .bool b => if b then "true".toList else "false".toList
  | .number n => Nat.toDigits 10 n
  | .text s => quote s
  | .array [] => ['[', ']']
  | .array (v :: vs) =>
    '[' :: (layout.lineBreak (level + 1) ++ print layout (level + 1) v ++
      printItems layout level vs)
  | .object [] => ['{', '}']
  | .object ((key, v) :: fs) =>
    '{' :: (layout.lineBreak (level + 1) ++ quote key ++ layout.colon ++
      print layout (level + 1) v ++ printFields layout level fs)

/-- The items of an array at `level` after the first, and its closing bracket. -/
def printItems (layout : Layout) (level : Nat) : List Plain → List Char
  | [] => layout.lineBreak level ++ [']']
  | v :: vs =>
    ',' :: (layout.lineBreak (level + 1) ++ print layout (level + 1) v ++
      printItems layout level vs)

/-- The fields of an object at `level` after the first, and its closing brace. -/
def printFields (layout : Layout) (level : Nat) : List (String × Plain) → List Char
  | [] => layout.lineBreak level ++ ['}']
  | (key, v) :: fs =>
    ',' :: (layout.lineBreak (level + 1) ++ quote key ++ layout.colon ++
      print layout (level + 1) v ++ printFields layout level fs)

end

def Plain.compact (v : Plain) : String := String.ofList (print .compact 0 v)

def Plain.pretty (v : Plain) : String := String.ofList (print .pretty 0 v)

end ShapeLedger.Json
