import ShapeLedger.Proofs.Related
import ShapeLedger.Proofs.Saturation

/-!
What the walk looks at: of a definition, its name and arity, how its types are
treated and the names and value types of its selected members. Two catalogs
that agree on this for each name that is looked up give the same expansions and
the same faults.
-/

namespace ShapeLedger

/-- Members of the same names and value types, in the same order. -/
def SameViews : List Member → List Member → Prop :=
  List.Forall₂ fun m m' => m.name = m'.name ∧ m.valueType = m'.valueType

theorem SameViews.eq_nil_iff {ms ms' : List Member} (h : SameViews ms ms') :
    ms = [] ↔ ms' = [] := by
  cases h <;> simp

namespace Descriptor

variable {R : Definition → Definition → Prop} {c c' : Catalog} {cfg : Config}

/-- The two walks are in step: they meet the same faults in the same places. What the catalogs
agree on is asked for only where a type has as many arguments as it takes. -/
theorem expand_eq_of_related (hR : KeepsHead R)
    (hcategory : ∀ {d d'}, d.Saturated → Related R d d' →
      Category.Corresponds SameViews (d.category cfg) (d'.category cfg))
    (hfind : ∀ {d d'}, d.Saturated → Related R d d' →
      ∀ {mode ms}, d.category cfg = .composite mode ms →
        ∀ m ∈ ms, ∀ n ∈ m.valueType.names, Option.Rel R (c.find? n) (c'.find? n))
    (path : Path) (d : Descriptor) (hd : d.From c) :
    d.Saturated → ∀ d', Related R d d' →
      ∀ hd hd', d.expand c cfg path hd = d'.expand c' cfg path hd' := by
  refine walkInduction cfg (fun path d _ arguments members hsat d' h hd hd' => ?_) path d hd
  have hcat := hcategory hsat h
  have hmembers := @hfind _ _ hsat h
  -- Both walks look for the same key on the same path, so both cut here or none.
  rw [expand, expand, ← h.pathKey hR, ← h.fullName hR, ← h.name hR]
  cases path.holds d.pathKey with
  | true => rfl
  | false =>
    generalize d.category cfg = k at hcat hmembers ⊢
    generalize d'.category cfg = k' at hcat ⊢
    cases hcat with
    | leaf => rfl
    | collection =>
      have hall : expandAll c cfg path d.arguments hd.arguments =
          expandAll c' cfg path d'.arguments hd'.arguments := by
        refine expandAll_congr hd.arguments hd'.arguments ?_
        have hall := (List.forall₂_and_left _ _).mpr
          ⟨fun a ha => arguments a ha (hsat.arguments a ha), h.arguments⟩
        exact hall.imp fun a a' ha => ha.1 a' ha.2
      simp only [hall]
    | @composite mode mode' ms ms' hviews =>
      simp only
      split
      · rename_i hroom
        have hall : expandMembers c cfg (path.push d) d hd ms =
            expandMembers c' cfg (path.push d') d' hd' ms' := by
          refine expandMembers_congr hd hd' ?_
          refine ((List.forall₂_and_left _ _).mpr ⟨fun m hm => hm, hviews⟩).imp ?_
          rintro m m' ⟨hmem, hname, hvalue⟩
          refine ⟨hname, (h.memberType hR hname hvalue (hmembers rfl m hmem)).mono ?_⟩
          intro v v' hv _ hvv'
          rw [← h.push hR path]
          exact members hroom m v hv (TypeRef.saturated_of_resolve hsat.arguments hv) v' hvv'
        simp only [hall]
      · rfl

end Descriptor

theorem Catalog.expansion_eq_of_related {R : Definition → Definition → Prop} {c c' : Catalog}
    {cfg : Config} (hR : KeepsHead R)
    (hcategory : ∀ {d d'}, d.Saturated → Descriptor.Related R d d' →
      Category.Corresponds SameViews (d.category cfg) (d'.category cfg))
    (hfind : ∀ {d d'}, d.Saturated → Descriptor.Related R d d' →
      ∀ {mode ms}, d.category cfg = .composite mode ms →
        ∀ m ∈ ms, ∀ n ∈ m.valueType.names, Option.Rel R (c.find? n) (c'.find? n))
    {r : TypeRef} (hr : ∀ n ∈ r.names, Option.Rel R (c.find? n) (c'.find? n)) :
    c.expansion cfg r = c'.expansion cfg r := by
  have hagree := TypeRef.resolve_related hR .nil entryPoint r hr
  generalize hx : r.resolve c [] entryPoint = x at hagree
  generalize hx' : r.resolve c' [] entryPoint = x' at hagree
  cases hagree with
  | error err => rw [expansion_of_error hx, expansion_of_error hx']
  | @ok d d' hdd' =>
    rw [expansion_of_ok hx, expansion_of_ok hx']
    exact Descriptor.expand_eq_of_related hR hcategory hfind [] d
      (TypeRef.from_of_resolve (by simp) hx) (TypeRef.saturated_of_resolve_nil hx) d' hdd' _ _

end ShapeLedger
