import ShapeLedger.Catalog
import ShapeLedger.Text.Quoted

/-!
Constructed types and the resolution of references. Resolving a reference
looks up every name in a catalog, checks the number of its arguments, and
puts the arguments of the context in place of parameters; the first fault in
reading order is reported.
-/

namespace ShapeLedger

/-- A definition applied to constructed types. -/
structure Descriptor where
  definition : Definition
  arguments : List Descriptor

/-- Why a type has no fingerprint. -/
inductive ShapeError where
  | unresolvableType (name referencedBy : String)
  | genericArityMismatch (name : String) (expected : UInt64) (found : Nat)
  | unboundParameter (index : UInt64) (referencedBy : String)
  | depthLimitExceeded (name : String) (limit : Nat)
deriving DecidableEq

def ShapeError.message : ShapeError → String
  | .unresolvableType name place =>
    "type " ++ Text.quoted name ++ " referenced by " ++ Text.quoted place ++
      " is not in the catalog"
  | .genericArityMismatch name expected found =>
    "type " ++ Text.quoted name ++ " expects " ++ expected.toNat.repr ++
      " generic argument(s), found " ++ found.repr
  | .unboundParameter index place =>
    "generic parameter !" ++ index.toNat.repr ++ " used by " ++ Text.quoted place ++
      " has no binding"
  | .depthLimitExceeded name limit =>
    Text.quoted name ++ " expanded more than " ++ limit.repr ++ " times along one path"

namespace Descriptor

def name (d : Descriptor) : String := d.definition.name

def arity (d : Descriptor) : Nat := d.arguments.length

/-- The name, with the number of arguments after a grave accent if there are
any. -/
def fullName (d : Descriptor) : String :=
  if d.arguments.isEmpty then d.name else d.name ++ "`" ++ d.arity.repr

mutual

/-- The full name with the keys of the arguments in brackets. -/
def pathKey : Descriptor → String
  | ⟨definition, []⟩ => definition.name
  | ⟨definition, a :: as⟩ =>
    fullName ⟨definition, a :: as⟩ ++ "[" ++ ",".intercalate (a.pathKey :: pathKeys as) ++ "]"

def pathKeys : List Descriptor → List String
  | [] => []
  | d :: ds => d.pathKey :: pathKeys ds

end

/-- Every definition in `d` is the one that the catalog files under its name. -/
inductive From (c : Catalog) : Descriptor → Prop where
  | intro {d : Descriptor} (listed : c.find? d.name = some d.definition)
      (arguments : ∀ a ∈ d.arguments, From c a) : From c d

theorem From.listed {c : Catalog} {d : Descriptor} (h : d.From c) :
    c.find? d.name = some d.definition := by
  cases h
  assumption

theorem From.arguments {c : Catalog} {d : Descriptor} (h : d.From c) :
    ∀ a ∈ d.arguments, a.From c := by
  cases h
  assumption

end Descriptor

namespace TypeRef

mutual

/-- The constructed type of a reference. `context` binds the parameters and
`referencedBy` names the place where the reference stands. -/
def resolve (c : Catalog) (context : List Descriptor) (referencedBy : String) :
    TypeRef → Except ShapeError Descriptor
  | .param index =>
    match context[index.toNat]? with
    | some d => .ok d
    | none => .error (.unboundParameter index referencedBy)
  | .named name arguments =>
    match c.find? name with
    | none => .error (.unresolvableType name referencedBy)
    | some definition =>
      if definition.genericArity.toNat = arguments.length then
        (resolveAll c context referencedBy arguments).map (Descriptor.mk definition)
      else
        .error (.genericArityMismatch name definition.genericArity arguments.length)

def resolveAll (c : Catalog) (context : List Descriptor) (referencedBy : String) :
    List TypeRef → Except ShapeError (List Descriptor)
  | [] => .ok []
  | r :: rs =>
    match resolve c context referencedBy r with
    | .error e => .error e
    | .ok d => (resolveAll c context referencedBy rs).map (d :: ·)

end

mutual

/-- What is resolved in a context from the catalog is itself from it. -/
theorem from_of_resolve {c : Catalog} {context : List Descriptor} {referencedBy : String}
    (hcontext : ∀ a ∈ context, a.From c) {r : TypeRef} {d : Descriptor}
    (h : r.resolve c context referencedBy = .ok d) : d.From c := by
  cases r with
  | param index =>
    rw [resolve] at h
    split at h
    · rename_i hget
      cases h
      exact hcontext _ (List.mem_of_getElem? hget)
    · cases h
  | named name arguments =>
    rw [resolve] at h
    split at h
    · cases h
    · rename_i definition hfind
      split at h
      · cases hall : resolveAll c context referencedBy arguments with
        | error e => simp [hall, Except.map] at h
        | ok ds =>
          simp only [hall, Except.map, Except.ok.injEq] at h
          subst h
          refine .intro ?_ (from_of_resolveAll hcontext hall)
          have hname := NameTable.nameOf_of_find? hfind
          rw [Descriptor.name, hname, hfind]
      · cases h

theorem from_of_resolveAll {c : Catalog} {context : List Descriptor} {referencedBy : String}
    (hcontext : ∀ a ∈ context, a.From c) {rs : List TypeRef} {ds : List Descriptor}
    (h : resolveAll c context referencedBy rs = .ok ds) : ∀ d ∈ ds, d.From c := by
  cases rs with
  | nil =>
    rw [resolveAll] at h
    cases h
    simp
  | cons r rs =>
    rw [resolveAll] at h
    cases hr : resolve c context referencedBy r with
    | error e => simp [hr] at h
    | ok d =>
      cases hrs : resolveAll c context referencedBy rs with
      | error e => simp [hr, hrs, Except.map] at h
      | ok ds' =>
        simp only [hr, hrs, Except.map, Except.ok.injEq] at h
        subst h
        intro x hx
        rcases List.mem_cons.mp hx with rfl | hx
        · exact from_of_resolve hcontext hr
        · exact from_of_resolveAll hcontext hrs x hx

end

end TypeRef

end ShapeLedger
