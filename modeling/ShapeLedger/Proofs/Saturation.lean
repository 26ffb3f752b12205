import ShapeLedger.Proofs.Pairing
import ShapeLedger.Descriptor

/-!
The number of arguments. Resolution checks it at every name, and what it puts in
place of a parameter was resolved before, so at every node of a constructed type
there are as many arguments as its definition takes. A constructed type is what
a reference resolves to, in no type or in one that is constructed itself.
-/

namespace ShapeLedger

namespace Descriptor

/-- At every node there are as many arguments as the definition takes. -/
inductive Saturated : Descriptor → Prop
  | intro {d : Descriptor} (arity : d.definition.genericArity.toNat = d.arguments.length)
    (arguments : ∀ a ∈ d.arguments, Saturated a) : Saturated d

theorem Saturated.arity {d : Descriptor} (h : d.Saturated) :
    d.definition.genericArity.toNat = d.arguments.length := by
  cases h
  assumption

theorem Saturated.arguments {d : Descriptor} (h : d.Saturated) :
    ∀ a ∈ d.arguments, a.Saturated := by
  cases h
  assumption

end Descriptor

namespace TypeRef

variable {c : Catalog} {context : List Descriptor} {place : String}

theorem resolveAll_eq_ok_iff {rs : List TypeRef} {ds : List Descriptor} :
    resolveAll c context place rs = .ok ds ↔
      List.Forall₂ (fun r d => r.resolve c context place = .ok d) rs ds := by
  induction rs generalizing ds with
  | nil => simp [resolveAll, eq_comm]
  | cons r rs ih =>
    rw [resolveAll, List.forall₂_cons_left_iff]
    cases h : r.resolve c context place with
    | error e => simp
    | ok d =>
      simp only [Except.ok.injEq, map_eq_ok_iff, ih]
      constructor
      · rintro ⟨ds', hds', rfl⟩
        exact ⟨d, ds', rfl, hds', rfl⟩
      · rintro ⟨_, ds', rfl, hds', rfl⟩
        exact ⟨ds', hds', rfl⟩

theorem length_of_resolveAll {rs : List TypeRef} {ds : List Descriptor}
    (h : resolveAll c context place rs = .ok ds) : ds.length = rs.length :=
  (resolveAll_eq_ok_iff.mp h).length_eq.symm

mutual

theorem saturated_of_resolve (hcontext : ∀ a ∈ context, a.Saturated) {r : TypeRef}
    {d : Descriptor} (h : r.resolve c context place = .ok d) : d.Saturated := by
  cases r with
  | param index =>
    rw [resolve] at h
    split at h
    · rename_i hget
      cases h
      exact hcontext _ (List.mem_of_getElem? hget)
    · cases h
  | named name arguments =>
    rw [resolve] at h
    split at h
    · cases h
    · split at h
      · rename_i harity
        obtain ⟨ds, hds, rfl⟩ := map_eq_ok_iff.mp h
        exact .intro (harity.trans (length_of_resolveAll hds).symm)
          (saturated_of_resolveAll hcontext hds)
      · cases h

theorem saturated_of_resolveAll (hcontext : ∀ a ∈ context, a.Saturated) {rs : List TypeRef}
    {ds : List Descriptor} (h : resolveAll c context place rs = .ok ds) :
    ∀ d ∈ ds, d.Saturated := by
  cases rs with
  | nil =>
    rw [resolveAll] at h
    cases h
    exact List.forall_mem_nil _
  | cons r rs =>
    rw [resolveAll] at h
    split at h
    · cases h
    · rename_i hd
      obtain ⟨ds', hds', rfl⟩ := map_eq_ok_iff.mp h
      exact List.forall_mem_cons.mpr
        ⟨saturated_of_resolve hcontext hd, saturated_of_resolveAll hcontext hds'⟩

end

/-- A reference that stands in no type has no context. -/
theorem saturated_of_resolve_nil {r : TypeRef} {d : Descriptor}
    (h : r.resolve c [] place = .ok d) : d.Saturated :=
  saturated_of_resolve (List.forall_mem_nil _) h

end TypeRef

namespace Descriptor

/-- What a reference resolves to that stands in no type, or in a constructed one. -/
inductive Constructed (c : Catalog) : Descriptor → Prop
  | closed {r : TypeRef} {place : String} {d : Descriptor} (value : r.resolve c [] place = .ok d) :
    Constructed c d
  | inside {owner : Descriptor} (before : Constructed c owner) {r : TypeRef} {place : String}
    {d : Descriptor} (value : r.resolve c owner.arguments place = .ok d) : Constructed c d

variable {c : Catalog} {d : Descriptor}

theorem Constructed.from (h : d.Constructed c) : d.From c := by
  induction h with
  | closed value => exact TypeRef.from_of_resolve (List.forall_mem_nil _) value
  | inside _ value ih => exact TypeRef.from_of_resolve ih.arguments value

theorem Constructed.saturated (h : d.Constructed c) : d.Saturated := by
  induction h with
  | closed value => exact TypeRef.saturated_of_resolve_nil value
  | inside _ value ih => exact TypeRef.saturated_of_resolve ih.arguments value

end Descriptor

end ShapeLedger
