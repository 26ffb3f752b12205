/-!
Expansion trees: what the walk finds in a constructed type, and the text of a
tree. The segments of a composite are sorted as whole texts, so the text does
not depend on the order of members.
-/

namespace ShapeLedger

inductive Expansion where
  /-- A leaf, or a type that is already open on the path. -/
  | bare (fullName : String)
  | collection (fullName : String) (arguments : List Expansion)
  /-- The members with what their value types expand to. -/
  | composite (fullName : String) (members : List (String × Expansion))
deriving Inhabited

namespace Expansion

/-- Segments in ascending order, with bars between them. -/
def joinSorted (segments : List String) : String :=
  "|".intercalate (segments.mergeSort (fun a b => decide (a ≤ b)))

mutual

/-- The text of a tree inside another one: the full name, and in parentheses
the body if there is one. -/
def render : Expansion → String
  | .bare n => n
  | .collection n arguments => n ++ "(" ++ "|".intercalate (renderAll arguments) ++ ")"
  | .composite n members => n ++ "(" ++ joinSorted (segments members) ++ ")"

def renderAll : List Expansion → List String
  | [] => []
  | e :: es => e.render :: renderAll es

/-- One segment a member: the text of its tree, a dash and its name. -/
def segments : List (String × Expansion) → List String
  | [] => []
  | (name, e) :: members => (e.render ++ "-" ++ name) :: segments members

end

/-- The text of a tree at the top, without the name of the type itself. -/
def body : Expansion → String
  | .bare _ => ""
  | .collection _ arguments => "|".intercalate (renderAll arguments)
  | .composite _ members => joinSorted (segments members)

theorem renderAll_eq_map (es : List Expansion) : renderAll es = es.map render := by
  induction es with
  | nil => rfl
  | cons e es ih => simp [renderAll, ih]

theorem segments_eq_map (members : List (String × Expansion)) :
    segments members = members.map fun m => m.2.render ++ "-" ++ m.1 := by
  induction members with
  | nil => rfl
  | cons m members ih => simp [segments, ih]

end Expansion

end ShapeLedger
