import ShapeLedger.Proofs.Walk

/-!
Unfoldings. A type unfolds to the tree of its members down to some depth, with
no regard to what is open already, so a type that refers back to itself is
looked into again at every level. Only composites count as levels, and those
below the last level are named.
-/

namespace ShapeLedger

namespace Descriptor

mutual

/-- The tree of `d` in which composites are looked into by `look`. -/
def unfoldWith (cfg : Config)
    (look : Descriptor → List Member → Except ShapeError Expansion) :
    Descriptor → Except ShapeError Expansion
  | ⟨definition, arguments⟩ =>
    let d : Descriptor := ⟨definition, arguments⟩
    match d.category cfg with
    | .leaf => .ok (.bare d.fullName)
    | .collection => (unfoldAllWith cfg look arguments).map (.collection d.fullName)
    | .composite _ members => look d members

def unfoldAllWith (cfg : Config)
    (look : Descriptor → List Member → Except ShapeError Expansion) :
    List Descriptor → Except ShapeError (List Expansion)
  | [] => .ok []
  | d :: ds =>
    match d.unfoldWith cfg look with
    | .error e => .error e
    | .ok e => (unfoldAllWith cfg look ds).map (e :: ·)

end

def unfoldMembers (c : Catalog) (owner : Descriptor)
    (unfold : Descriptor → Except ShapeError Expansion) :
    List Member → Except ShapeError (List (String × Expansion))
  | [] => .ok []
  | m :: ms =>
    match (owner.memberType c m).bind unfold with
    | .error e => .error e
    | .ok e => (unfoldMembers c owner unfold ms).map ((m.name, e) :: ·)

/-- The tree of `d` down to a depth of `k` composites. -/
def unfold (c : Catalog) (cfg : Config) : Nat → Descriptor → Except ShapeError Expansion
  | 0 => unfoldWith cfg fun d _ => .ok (.bare d.fullName)
  | k + 1 => unfoldWith cfg fun d members =>
    (unfoldMembers c d (unfold c cfg k) members).map (.composite d.fullName)

variable {c : Catalog} {cfg : Config} {d : Descriptor}
  {look : Descriptor → List Member → Except ShapeError Expansion}

theorem unfoldWith_eq (d : Descriptor) : d.unfoldWith cfg look =
    match d.category cfg with
    | .leaf => .ok (.bare d.fullName)
    | .collection => (unfoldAllWith cfg look d.arguments).map (.collection d.fullName)
    | .composite _ members => look d members := by
  cases d
  rfl

theorem unfoldAllWith_eq_ok {ds : List Descriptor} {es : List Expansion}
    (h : List.Forall₂ (fun d e => d.unfoldWith cfg look = .ok e) ds es) :
    unfoldAllWith cfg look ds = .ok es := by
  induction h with
  | nil => rfl
  | cons hhead _ ih => simp [unfoldAllWith, hhead, ih, Except.map]

def MemberUnfolds (c : Catalog) (cfg : Config) (k : Nat) (owner : Descriptor) (m : Member)
    (x : String × Expansion) : Prop :=
  m.name = x.1 ∧ ∃ v, owner.memberType c m = .ok v ∧ v.unfold c cfg k = .ok x.2

theorem unfoldMembers_eq_ok {owner : Descriptor} {k : Nat} {ms : List Member}
    {xs : List (String × Expansion)} (h : List.Forall₂ (MemberUnfolds c cfg k owner) ms xs) :
    unfoldMembers c owner (unfold c cfg k) ms = .ok xs := by
  induction h with
  | nil => rfl
  | cons hhead _ ih =>
    obtain ⟨hname, v, hv, hunfold⟩ := hhead
    simp [unfoldMembers, hv, hunfold, ih, hname, Except.bind, Except.map]

theorem unfold_of_leaf (h : d.category cfg = .leaf) (k : Nat) :
    d.unfold c cfg k = .ok (.bare d.fullName) := by
  cases k <;> rw [unfold, unfoldWith_eq, h]

theorem unfold_of_collection (h : d.category cfg = .collection) {k : Nat} {es : List Expansion}
    (hes : List.Forall₂ (fun a e => a.unfold c cfg k = .ok e) d.arguments es) :
    d.unfold c cfg k = .ok (.collection d.fullName es) := by
  cases k <;> rw [unfold, unfoldWith_eq, h] <;>
    exact map_eq_ok_iff.mpr ⟨es, unfoldAllWith_eq_ok hes, rfl⟩

theorem unfold_zero_of_composite {mode : SelectionMode} {ms : List Member}
    (h : d.category cfg = .composite mode ms) : d.unfold c cfg 0 = .ok (.bare d.fullName) := by
  rw [unfold, unfoldWith_eq, h]

theorem unfold_succ_of_composite {mode : SelectionMode} {ms : List Member}
    (h : d.category cfg = .composite mode ms) {k : Nat} {xs : List (String × Expansion)}
    (hxs : List.Forall₂ (MemberUnfolds c cfg k d) ms xs) :
    d.unfold c cfg (k + 1) = .ok (.composite d.fullName xs) := by
  rw [unfold, unfoldWith_eq, h]
  exact map_eq_ok_iff.mpr ⟨xs, unfoldMembers_eq_ok hxs, rfl⟩

end Descriptor

/-- The tree of a reference that stands in no type, down to depth `k`. -/
def Catalog.unfolding (c : Catalog) (cfg : Config) (k : Nat) (r : TypeRef) :
    Except ShapeError Expansion :=
  (r.resolve c [] entryPoint).bind (Descriptor.unfold c cfg k)

end ShapeLedger
