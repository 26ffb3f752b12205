import Mathlib.Data.List.Perm.Basic
import ShapeLedger.Proofs.PathKey
import ShapeLedger.Proofs.Walk

/-!
Two catalogs whose definitions correspond. If the definitions of each name are
related, and related ones agree on name and arity, then a reference resolves in
both to types that are built alike from related definitions, or fails in both
with the same fault. Such types have the same names and keys.
-/

namespace ShapeLedger

namespace TypeRef

mutual

/-- Every name that stands in a reference. -/
def names : TypeRef → List String
  | .param _ => []
  | .named name arguments => name :: namesAll arguments

def namesAll : List TypeRef → List String
  | [] => []
  | r :: rs => r.names ++ namesAll rs

end

end TypeRef

theorem NameTable.find?_related {α : Type} {nameOf : α → String} {R : α → α → Prop}
    (hname : ∀ a b, R a b → nameOf a = nameOf b) {t u : NameTable nameOf}
    (h : List.Forall₂ R t.items u.items) (name : String) :
    Option.Rel R (t.find? name) (u.find? name) := by
  rw [find?, find?]
  generalize t.items = as at h
  generalize u.items = bs at h
  induction h with
  | nil => exact .none
  | @cons a b _ _ hab _ ih =>
    rw [List.find?_cons, List.find?_cons, ← hname a b hab]
    split
    · exact .some hab
    · exact ih

/-- A relation of definitions that keeps the name and the arity. -/
structure KeepsHead (R : Definition → Definition → Prop) : Prop where
  name : ∀ {a b}, R a b → a.name = b.name
  genericArity : ∀ {a b}, R a b → a.genericArity = b.genericArity

namespace Definition

/-- The same definition but for its members. -/
structure SameHead (d d' : Definition) : Prop where
  name : d.name = d'.name
  genericArity : d.genericArity = d'.genericArity
  contracts : d.contracts = d'.contracts

variable {d d' : Definition}

theorem SameHead.symm (h : d.SameHead d') : d'.SameHead d :=
  ⟨h.name.symm, h.genericArity.symm, h.contracts.symm⟩

theorem SameHead.isString (h : d.SameHead d') (cfg : Config) :
    d.isString cfg = d'.isString cfg := by
  rw [Definition.isString, Definition.isString, h.name]

theorem SameHead.isEnumerable (h : d.SameHead d') (cfg : Config) :
    d.isEnumerable cfg = d'.isEnumerable cfg := by
  rw [Definition.isEnumerable, Definition.isEnumerable, h.name, h.contracts]

end Definition

theorem KeepsHead.of_sameHead {R : Definition → Definition → Prop}
    (hR : ∀ {a b}, R a b → a.SameHead b) : KeepsHead R :=
  ⟨fun h => (hR h).name, fun h => (hR h).genericArity⟩

namespace Descriptor

variable {R : Definition → Definition → Prop} {d d' : Descriptor}

/-- Built alike from related definitions. -/
inductive Related (R : Definition → Definition → Prop) : Descriptor → Descriptor → Prop
  | intro {d d' : Descriptor} (definition : R d.definition d'.definition)
    (arguments : List.Forall₂ (Related R) d.arguments d'.arguments) : Related R d d'

theorem Related.definition (h : Related R d d') : R d.definition d'.definition := by
  cases h
  assumption

theorem Related.arguments (h : Related R d d') :
    List.Forall₂ (Related R) d.arguments d'.arguments := by
  cases h
  assumption

theorem Related.isEmpty_arguments (h : Related R d d') :
    d.arguments.isEmpty = d'.arguments.isEmpty := by
  have := h.arguments.length_eq
  cases hd : d.arguments <;> cases hd' : d'.arguments <;> simp_all

section
variable (hR : KeepsHead R)
include hR

theorem Related.name (h : Related R d d') : d.name = d'.name := hR.name h.definition

theorem Related.fullName (h : Related R d d') : d.fullName = d'.fullName := by
  rw [Descriptor.fullName, Descriptor.fullName, h.isEmpty_arguments, h.name hR, arity, arity,
    h.arguments.length_eq]

theorem Related.pathKey (h : Related R d d') : d.pathKey = d'.pathKey := by
  induction d generalizing d' with
  | node d ih =>
    have hkeys : d.arguments.map Descriptor.pathKey = d'.arguments.map Descriptor.pathKey := by
      rw [← List.forall₂_eq_eq_eq, List.forall₂_map_left_iff, List.forall₂_map_right_iff]
      exact ((List.forall₂_and_left _ _).mpr ⟨ih, h.arguments⟩).imp fun a a' ha => ha.1 ha.2
    rw [pathKey_eq, pathKey_eq, h.isEmpty_arguments, h.fullName hR, hkeys]

theorem Related.push (h : Related R d d') (path : Path) : path.push d = path.push d' := by
  rw [Path.push, Path.push, h.name hR, h.pathKey hR]

end

end Descriptor

namespace TypeRef

variable {R : Definition → Definition → Prop} {c c' : Catalog} {context context' : List Descriptor}

mutual

/-- Resolution follows related definitions, whatever it finds. -/
theorem resolve_related (hR : KeepsHead R)
    (hcontext : List.Forall₂ (Descriptor.Related R) context context') (place : String)
    (r : TypeRef) (hfind : ∀ n ∈ r.names, Option.Rel R (c.find? n) (c'.find? n)) :
    Agree (Descriptor.Related R) (r.resolve c context place) (r.resolve c' context' place) := by
  cases r with
  | param index =>
    have hindex := getElem?_related hcontext index.toNat
    rw [resolve, resolve]
    generalize context[index.toNat]? = o at hindex ⊢
    generalize context'[index.toNat]? = o' at hindex ⊢
    cases hindex with
    | none => exact .error _
    | some hd => exact .ok hd
  | named name arguments =>
    have hname := hfind name (by simp [names])
    have hall := resolveAll_related hR hcontext place arguments
      fun n hn => hfind n (by simp [names, hn])
    rw [resolve, resolve]
    generalize c.find? name = o at hname ⊢
    generalize c'.find? name = o' at hname ⊢
    cases hname with
    | none => exact .error _
    | some hdef =>
      simp only [hR.genericArity hdef]
      split
      · generalize resolveAll c context place arguments = x at hall ⊢
        generalize resolveAll c' context' place arguments = x' at hall ⊢
        cases hall with
        | error e => exact .error e
        | ok hds => exact .ok (.intro hdef hds)
      · exact .error _

theorem resolveAll_related (hR : KeepsHead R)
    (hcontext : List.Forall₂ (Descriptor.Related R) context context') (place : String)
    (rs : List TypeRef) (hfind : ∀ n ∈ namesAll rs, Option.Rel R (c.find? n) (c'.find? n)) :
    Agree (List.Forall₂ (Descriptor.Related R)) (resolveAll c context place rs)
      (resolveAll c' context' place rs) := by
  cases rs with
  | nil => exact .ok .nil
  | cons r rs =>
    have hr := resolve_related hR hcontext place r fun n hn => hfind n (by simp [namesAll, hn])
    have hrs := resolveAll_related hR hcontext place rs
      fun n hn => hfind n (by simp [namesAll, hn])
    rw [resolveAll, resolveAll]
    generalize resolve c context place r = x at hr ⊢
    generalize resolve c' context' place r = x' at hr ⊢
    cases hr with
    | error e => exact .error e
    | ok hd =>
      generalize resolveAll c context place rs = y at hrs ⊢
      generalize resolveAll c' context' place rs = y' at hrs ⊢
      cases hrs with
      | error e => exact .error e
      | ok hds => exact .ok (.cons hd hds)

end

end TypeRef

/-- Both treat a type the same way, and composites hold corresponding members. -/
inductive Category.Corresponds (Q : List Member → List Member → Prop) :
    Category → Category → Prop
  | leaf : Corresponds Q .leaf .leaf
  | collection : Corresponds Q .collection .collection
  | composite (mode mode' : SelectionMode) {ms ms' : List Member} (members : Q ms ms') :
    Corresponds Q (.composite mode ms) (.composite mode' ms')

namespace Category.Corresponds

variable {Q : List Member → List Member → Prop} {k : Category}

theorem eq_leaf (h : Corresponds Q .leaf k) : k = .leaf := by
  cases h
  rfl

theorem eq_collection (h : Corresponds Q .collection k) : k = .collection := by
  cases h
  rfl

theorem eq_composite {mode : SelectionMode} {ms : List Member}
    (h : Corresponds Q (.composite mode ms) k) :
    ∃ mode' ms', k = .composite mode' ms' ∧ Q ms ms' := by
  cases h with
  | composite _ mode' hms => exact ⟨mode', _, rfl, hms⟩

end Category.Corresponds

namespace Descriptor

variable {R : Definition → Definition → Prop} {c c' : Catalog} {cfg : Config} {d d' : Descriptor}

/-- Selected members are compared only where the walk looks at them. -/
theorem category_corresponds {Q : List Member → List Member → Prop}
    (hnil : ∀ {ms ms'}, Q ms ms' → (ms = [] ↔ ms' = []))
    (hstring : d.definition.isString cfg = d'.definition.isString cfg)
    (hempty : d.arguments.isEmpty = d'.arguments.isEmpty)
    (henumerable : d.definition.isEnumerable cfg = d'.definition.isEnumerable cfg)
    (hselected : d.definition.isString cfg = false →
      (!d.arguments.isEmpty && d.definition.isEnumerable cfg) = false →
        Q (d.definition.selected cfg) (d'.definition.selected cfg)) :
    Category.Corresponds Q (d.category cfg) (d'.category cfg) := by
  rw [category, category, ← hstring, ← hempty, ← henumerable]
  split
  · exact .leaf
  · exact .collection
  · rename_i hs hc
    have hQ := hselected hs hc
    generalize d.definition.selected cfg = ms at hQ ⊢
    generalize d'.definition.selected cfg = ms' at hQ ⊢
    have hiff := hnil hQ
    cases ms with
    | nil =>
      cases hiff.mp rfl
      exact .leaf
    | cons m ms =>
      cases ms' with
      | nil => cases hiff.mpr rfl
      | cons m' ms' => exact .composite _ _ hQ

theorem Related.memberType (hR : KeepsHead R) (h : Related R d d') {m m' : Member}
    (hname : m.name = m'.name) (hvalue : m.valueType = m'.valueType)
    (hfind : ∀ n ∈ m.valueType.names, Option.Rel R (c.find? n) (c'.find? n)) :
    Agree (Related R) (d.memberType c m) (d'.memberType c' m') := by
  rw [Descriptor.memberType, Descriptor.memberType, ← hname, ← hvalue, ← h.fullName hR]
  exact TypeRef.resolve_related hR h.arguments _ _ hfind

end Descriptor

end ShapeLedger
