/-!
The members in the text of a fingerprint. The text is cut at the bars that
stand outside parentheses, and each segment is cut at its last dash into the
text of a value type and the name of a member.
-/

namespace ShapeLedger

/-- A member as a fingerprint shows it. -/
structure MemberShape where
  name : String
  typeText : String
deriving DecidableEq

namespace Shape

/-- The depth after `c`. A closing parenthesis at depth zero has no effect. -/
def depthAfter (depth : Nat) (c : Char) : Nat :=
  if c = '(' then depth + 1 else if c = ')' then depth - 1 else depth

/-- Cuts at the bars at depth zero, beginning at the given depth. -/
def cut (depth : Nat) : List Char → List (List Char)
  | [] => [[]]
  | c :: cs =>
    if c = '|' ∧ depth = 0 then [] :: cut 0 cs
    else (cut (depthAfter depth c) cs).modifyHead (c :: ·)

/-- The segments of a fingerprint. The empty text has none. -/
def segments (text : String) : List String :=
  if text.isEmpty then [] else (cut 0 text.toList).map String.ofList

/-- What stands before and after the last dash, if there is one. -/
def splitAtLastDash? : List Char → Option (List Char × List Char)
  | [] => none
  | c :: cs =>
    match splitAtLastDash? cs with
    | some (before, after) => some (c :: before, after)
    | none => if c = '-' then some ([], cs) else none

/-- A segment without a dash is a type text whose member has the empty name. -/
def ofSegment (segment : String) : MemberShape :=
  match splitAtLastDash? segment.toList with
  | some (typeText, name) => ⟨String.ofList name, String.ofList typeText⟩
  | none => ⟨"", segment⟩

/-- The members in the order of their segments. -/
def members (text : String) : List MemberShape := (segments text).map ofSegment

end Shape

end ShapeLedger
