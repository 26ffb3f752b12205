/-!
References to types: a name applied to arguments, or a generic parameter of
the definition in which the reference stands, given by its position.
-/

namespace ShapeLedger

inductive TypeRef where
  | param (index : UInt64)
  | named (name : String) (arguments : List TypeRef)
deriving Inhabited

namespace TypeRef

mutual

/-- Equality of references is decided node by node. -/
def decEq : (r s : TypeRef) → Decidable (r = s)
  | .param i, .param j =>
    if h : i = j then isTrue (by rw [h]) else isFalse (by simp [h])
  | .param _, .named _ _ => isFalse (by simp)
  | .named _ _, .param _ => isFalse (by simp)
  | .named n as, .named m bs =>
    if h : n = m then
      match decEqList as bs with
      | isTrue hs => isTrue (by rw [h, hs])
      | isFalse hs => isFalse (by simp [hs])
    else isFalse (by simp [h])

def decEqList : (rs ss : List TypeRef) → Decidable (rs = ss)
  | [], [] => isTrue rfl
  | [], _ :: _ => isFalse (by simp)
  | _ :: _, [] => isFalse (by simp)
  | r :: rs, s :: ss =>
    match decEq r s, decEqList rs ss with
    | isTrue h, isTrue hs => isTrue (by rw [h, hs])
    | isFalse h, _ => isFalse (by simp [h])
    | _, isFalse hs => isFalse (by simp [hs])

end

instance : DecidableEq TypeRef := decEq

mutual

/-- A parameter is its position after an exclamation mark; the arguments of a
name stand in brackets, separated by commas. -/
def text : TypeRef → String
  | .param index => "!" ++ index.toNat.repr
  | .named name [] => name
  | .named name arguments => name ++ "[" ++ ",".intercalate (texts arguments) ++ "]"

def texts : List TypeRef → List String
  | [] => []
  | r :: rs => r.text :: texts rs

end

end TypeRef

end ShapeLedger
