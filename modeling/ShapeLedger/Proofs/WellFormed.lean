import ShapeLedger.Proofs.BackReference
import ShapeLedger.Proofs.FirstFault
import ShapeLedger.Proofs.Visits

/-!
Catalogs on which the walk does not fail. A fault arises at some visit: the
type there may not be opened again, or the type of one of its members does not
resolve. If all selected members refer to listed names with as many arguments
as they take, the second never happens, since resolving keeps the number of
arguments right in every type that it makes. The first never happens to a type
without arguments, which is open at most once.
-/

namespace ShapeLedger

open Relation (ReflTransGen)

namespace TypeRef

mutual

/-- Every name is listed and has as many arguments as its definition takes, and every
parameter is one of so many. -/
def wellFormed (c : Catalog) (parameters : Nat) : TypeRef → Bool
  | .param index => index.toNat < parameters
  | .named name arguments =>
    (c.find? name).any (fun d => d.genericArity.toNat = arguments.length) &&
      wellFormedAll c parameters arguments

def wellFormedAll (c : Catalog) (parameters : Nat) : List TypeRef → Bool
  | [] => true
  | r :: rs => wellFormed c parameters r && wellFormedAll c parameters rs

end

variable {c : Catalog} {context : List Descriptor}

mutual

theorem wellFormed_iff {bound : Nat} (place : String) {r : TypeRef} :
    r.wellFormed c bound = true ↔ ∀ s ∈ r.nodes, s.ownFault? c bound place = none := by
  cases r with
  | param index =>
    rw [nodes, List.forall_mem_singleton, ownFault?_param_eq_none_iff, wellFormed,
      decide_eq_true_iff]
  | named name arguments =>
    rw [nodes, List.forall_mem_cons, ownFault?_named_eq_none_iff, wellFormed, Bool.and_eq_true,
      wellFormedAll_iff place, Option.any_eq_true]
    simp only [decide_eq_true_eq]

theorem wellFormedAll_iff {bound : Nat} (place : String) {rs : List TypeRef} :
    wellFormedAll c bound rs = true ↔ ∀ s ∈ nodesAll rs, s.ownFault? c bound place = none := by
  cases rs with
  | nil => simp [wellFormedAll, nodesAll]
  | cons r rs =>
    rw [wellFormedAll, nodesAll, List.forall_mem_append, Bool.and_eq_true, wellFormed_iff place,
      wellFormedAll_iff place]

end

theorem exists_resolve_of_wellFormed (place : String) {r : TypeRef}
    (hr : r.wellFormed c context.length = true) : ∃ d, r.resolve c context place = .ok d :=
  exists_resolve_iff.mpr ((wellFormed_iff place).mp hr)

/-- A reference that stands in no type has no parameters. -/
theorem exists_resolve_of_closed {r : TypeRef} (hr : r.wellFormed c 0 = true) (place : String) :
    ∃ d, r.resolve c [] place = .ok d := by
  have hempty : r.wellFormed c ([] : List Descriptor).length = true := hr
  exact exists_resolve_of_wellFormed place hempty

end TypeRef

/-- The selected members of every definition refer to listed names with the right number of
arguments, and to no other parameters than those of the definition. -/
def Catalog.WellFormed (c : Catalog) (cfg : Config) : Prop :=
  ∀ d ∈ c.items, ∀ m ∈ d.selected cfg, m.valueType.wellFormed c d.genericArity.toNat = true

instance (c : Catalog) (cfg : Config) : Decidable (c.WellFormed cfg) :=
  inferInstanceAs (Decidable (∀ d ∈ c.items, ∀ m ∈ d.selected cfg, _ = true))

namespace Descriptor

variable {c : Catalog} {cfg : Config} {path : Path}

/-! ### Where a walk fails -/

theorem exists_of_expandAll_eq_error {ds : List Descriptor} (hds : ∀ d ∈ ds, d.From c)
    {err : ShapeError} (h : expandAll c cfg path ds hds = .error err) :
    ∃ d, ∃ hd : d ∈ ds, d.expand c cfg path (hds d hd) = .error err := by
  induction ds with
  | nil =>
    rw [expandAll] at h
    cases h
  | cons d ds ih =>
    rw [expandAll] at h
    split at h
    · rename_i hhead
      cases h
      exact ⟨d, List.mem_cons_self, hhead⟩
    · obtain ⟨a, ha, hfails⟩ := ih _ (map_eq_error_iff.mp h)
      exact ⟨a, List.mem_cons_of_mem _ ha, hfails⟩

theorem exists_of_expandMembers_eq_error {owner : Descriptor} (howner : owner.From c)
    {ms : List Member} {err : ShapeError}
    (h : expandMembers c cfg path owner howner ms = .error err) :
    ∃ m ∈ ms, owner.memberType c m = .error err ∨
      ∃ v hv, owner.memberType c m = .ok v ∧ v.expand c cfg path hv = .error err := by
  induction ms with
  | nil =>
    rw [expandMembers] at h
    cases h
  | cons m ms ih =>
    cases hv : owner.memberType c m with
    | error err' =>
      rw [expandMembers_cons_of_error howner hv] at h
      cases h
      exact ⟨m, List.mem_cons_self, .inl hv⟩
    | ok v =>
      rw [expandMembers_cons_of_ok howner hv] at h
      split at h
      · rename_i hhead
        cases h
        exact ⟨m, List.mem_cons_self, .inr ⟨v, _, hv, hhead⟩⟩
      · obtain ⟨m', hm', hfails⟩ := ih (map_eq_error_iff.mp h)
        exact ⟨m', List.mem_cons_of_mem _ hm', hfails⟩

end Descriptor

namespace Visit

variable {c : Catalog} {cfg : Config} {r : TypeRef} {x y : Visit} {err : ShapeError}

/-- A fault that arises at a visit itself, and not at one that it calls for. -/
inductive Fails (c : Catalog) (cfg : Config) (x : Visit) : ShapeError → Prop
  | limit (free : x.path.holds x.type.pathKey = false)
    (full : cfg.maxGenericNesting ≤ x.path.expansions x.type.name) :
    Fails c cfg x (.depthLimitExceeded x.type.fullName cfg.maxGenericNesting)
  | member {mode : SelectionMode} {ms : List Member}
    (kind : x.type.category cfg = .composite mode ms) {m : Member} (mem : m ∈ ms)
    {err : ShapeError} (value : x.type.memberType c m = .error err) : Fails c cfg x err

/-- Every fault of a walk arises at one of its visits. -/
theorem exists_fails (hx : x.type.From c) (h : x.type.expand c cfg x.path hx = .error err) :
    ∃ y, ReflTransGen (Calls c cfg) x y ∧ Fails c cfg y err := by
  revert h
  refine callInduction cfg (P := fun x => ∀ hx, x.type.expand c cfg x.path hx = .error err →
    ∃ y, ReflTransGen (Calls c cfg) x y ∧ Fails c cfg y err) (fun x _ ih hx h => ?_) hx hx
  have hcalls {y : Visit} (hcall : x.Calls c cfg y) {hy}
      (hfails : y.type.expand c cfg y.path hy = .error err) :
      ∃ y, ReflTransGen (Calls c cfg) x y ∧ Fails c cfg y err := by
    obtain ⟨z, hreach, hz⟩ := ih y hcall hy hfails
    exact ⟨z, hreach.head hcall, hz⟩
  rw [Descriptor.expand] at h
  split at h
  · cases h
  · cases h
  · rename_i free kind
    obtain ⟨a, ha, hfails⟩ :=
      Descriptor.exists_of_expandAll_eq_error _ (map_eq_error_iff.mp h)
    exact hcalls (.argument free kind ha) hfails
  · rename_i free kind
    split at h
    · rename_i room
      obtain ⟨m, hm, hvalue | ⟨v, hv, hvalue, hfails⟩⟩ :=
        Descriptor.exists_of_expandMembers_eq_error _ (map_eq_error_iff.mp h)
      · exact ⟨x, .refl, .member kind hm hvalue⟩
      · exact hcalls (.member free kind room hm hvalue) hfails
    · rename_i full
      cases h
      exact ⟨x, .refl, .limit free (Nat.not_lt.mp full)⟩

/-! ### Well-formed catalogs -/

theorem exists_memberType_of_wellFormed (hc : c.WellFormed cfg) {d : Descriptor} (hd : d.From c)
    (hsaturated : d.Saturated) {m : Member} (hm : m ∈ d.definition.selected cfg) :
    ∃ v, d.memberType c m = .ok v := by
  have hwell := hc d.definition hd.definition_mem m hm
  rw [hsaturated.arity] at hwell
  exact TypeRef.exists_resolve_of_wellFormed _ hwell

theorem Reached.saturated (h : Reached c cfg r x) : x.type.Saturated := by
  refine h.preserves (fun d hd => TypeRef.saturated_of_resolve_nil hd) fun x y _ hcall ih => ?_
  cases hcall with
  | argument free kind mem => exact ih.arguments _ mem
  | member free kind room mem value => exact TypeRef.saturated_of_resolve ih.arguments value

/-- A visit to a generic type of which as many constructions are open, under different keys,
as the limit allows, and which is none of them. -/
structure Exhausted (c : Catalog) (cfg : Config) (r : TypeRef) (x : Visit) : Prop where
  reached : x.Reached c cfg r
  generic : 1 ≤ x.type.definition.genericArity.toNat
  full : (x.path.filter fun o => o.name = x.type.name).length = cfg.maxGenericNesting
  distinct : ((x.path.filter fun o => o.name = x.type.name).map OpenType.key).Nodup
  new : x.type.pathKey ∉ x.path.map OpenType.key

/-- What is open of a type without arguments has its key, so it is not opened again. -/
theorem Reached.holds_of_no_arguments (h : Reached c cfg r x) (hargs : x.type.arguments = [])
    (hopen : 0 < x.path.expansions x.type.name) : x.path.holds x.type.pathKey = true := by
  obtain ⟨o, ho, hname⟩ := List.countP_pos_iff.mp hopen
  obtain ⟨y, hy, rfl⟩ := h.opened o ho
  have hsame : y.type.name = x.type.name := of_decide_eq_true hname
  have harity := hy.saturated.arity
  rw [hy.from.definition_eq h.from hsame, h.saturated.arity, hargs] at harity
  have hnil : y.type.arguments = [] := List.eq_nil_of_length_eq_zero harity.symm
  have hkey : y.type.pathKey = x.type.pathKey := by
    rw [Descriptor.pathKey_of_nil hnil, Descriptor.pathKey_of_nil hargs, hsame]
  exact Path.holds_iff.mpr (hkey ▸ List.mem_map_of_mem ho)

/-- In a well-formed catalog only the limit stops a walk, and only at a generic type. -/
theorem Reached.exhausted_of_fails (hc : c.WellFormed cfg) (hlimit : 1 ≤ cfg.maxGenericNesting)
    (h : Reached c cfg r x) (hfails : Fails c cfg x err) :
    x.Exhausted c cfg r ∧ err = .depthLimitExceeded x.type.fullName cfg.maxGenericNesting := by
  cases hfails with
  | member kind mem value =>
    rw [(Descriptor.members_of_category kind).1] at mem
    obtain ⟨v, hv⟩ := exists_memberType_of_wellFormed hc h.from h.saturated mem
    cases value.symm.trans hv
  | limit free full =>
    have hlength : (x.path.filter fun o => o.name = x.type.name).length =
        x.path.expansions x.type.name := (List.countP_eq_length_filter ..).symm
    refine ⟨⟨h, ?_, ?_, ?_, ?_⟩, rfl⟩
    · rw [h.saturated.arity, Nat.one_le_iff_ne_zero, Ne, List.length_eq_zero_iff]
      intro hargs
      have hheld := h.holds_of_no_arguments hargs (by omega)
      rw [hheld] at free
      cases free
    · rw [hlength]
      exact Nat.le_antisymm (h.expansions_le _) full
    · exact h.keys_nodup.sublist (List.filter_sublist.map _)
    · exact Path.holds_eq_false_iff.mp free

end Visit

namespace Catalog

variable {c : Catalog} {cfg : Config} {r : TypeRef} {err : ShapeError}

theorem exists_exhausted_of_error (hc : c.WellFormed cfg) (hlimit : 1 ≤ cfg.maxGenericNesting)
    (hr : r.wellFormed c 0 = true) (h : c.expansion cfg r = .error err) :
    ∃ x, Visit.Exhausted c cfg r x ∧
      err = .depthLimitExceeded x.type.fullName cfg.maxGenericNesting := by
  obtain ⟨d, hd⟩ := TypeRef.exists_resolve_of_closed hr entryPoint
  rw [expansion_of_ok hd] at h
  obtain ⟨y, hreach, hfails⟩ := Visit.exists_fails (x := ⟨[], d⟩) _ h
  have hy : y.Reached c cfg r := ⟨d, hd, hreach⟩
  exact ⟨y, hy.exhausted_of_fails hc hlimit hfails⟩

/-- Types of a well-formed catalog have fingerprints, unless constructions of one generic
type are nested to the limit. -/
theorem fingerprintOf_of_wellFormed (hc : c.WellFormed cfg) (hlimit : 1 ≤ cfg.maxGenericNesting)
    {name : String} {d : Definition} (hd : c.find? name = some d) (harity : d.genericArity = 0) :
    ((∃ s, c.fingerprintOf cfg name = .ok s) ∨
      ∃ n, c.fingerprintOf cfg name = .error (.depthLimitExceeded n cfg.maxGenericNesting)) ∧
    (∀ n limit, c.fingerprintOf cfg name = .error (.depthLimitExceeded n limit) →
      limit = cfg.maxGenericNesting ∧
        ∃ x, Visit.Exhausted c cfg (.named name []) x ∧ x.type.fullName = n) ∧
    (c.Nongeneric → ∃ s, c.fingerprintOf cfg name = .ok s) := by
  have hr : (TypeRef.named name []).wellFormed c 0 = true := by
    simp [TypeRef.wellFormed, TypeRef.wellFormedAll, hd, harity]
  have herror {err : ShapeError} (h : c.fingerprintOf cfg name = .error err) :
      ∃ x, Visit.Exhausted c cfg (.named name []) x ∧
        err = .depthLimitExceeded x.type.fullName cfg.maxGenericNesting := by
    rw [fingerprintOf, fingerprint, map_eq_error_iff] at h
    exact exists_exhausted_of_error hc hlimit hr h
  refine ⟨?_, fun n limit h => ?_, fun hplain => ?_⟩
  · cases h : c.fingerprintOf cfg name with
    | ok s => exact .inl ⟨s, rfl⟩
    | error err =>
      obtain ⟨x, -, rfl⟩ := herror h
      exact .inr ⟨_, rfl⟩
  · obtain ⟨x, hx, heq⟩ := herror h
    cases heq
    exact ⟨rfl, x, hx, rfl⟩
  · cases h : c.fingerprintOf cfg name with
    | ok s => exact ⟨s, rfl⟩
    | error err =>
      obtain ⟨x, hx, -⟩ := herror h
      have hgeneric := hx.generic
      rw [hplain _ hx.reached.from.definition_mem] at hgeneric
      cases hgeneric

/-- The tail of a cell has cells in it of what the cell has in it. -/
def growingTail : TypeRef := .named "Cell" [.named "Cell" [.param 0]]

/-- Cells whose tails grow, in a walk that opens no more than three of them. -/
theorem exhausted_growing_chains :
    (chains growingTail).WellFormed { maxGenericNesting := 3 } ∧
      (∃ d, (chains growingTail).find? "Root" = some d ∧ d.genericArity = 0) ∧
      (chains growingTail).fingerprintOf { maxGenericNesting := 3 } "Root" =
        .error (.depthLimitExceeded "Cell`1" 3) ∧
      ∃ x, Visit.Exhausted (chains growingTail) { maxGenericNesting := 3 } (.named "Root" []) x ∧
        x.type.fullName = "Cell`1" := by
  have hwell : (chains growingTail).WellFormed { maxGenericNesting := 3 } := by decide
  have hroot : ∃ d, (chains growingTail).find? "Root" = some d ∧ d.genericArity = 0 := ⟨_, rfl, rfl⟩
  have herror : (chains growingTail).fingerprintOf { maxGenericNesting := 3 } "Root" =
      .error (.depthLimitExceeded "Cell`1" 3) := by cbv
  obtain ⟨d, hd, harity⟩ := hroot
  have hresult := fingerprintOf_of_wellFormed hwell (by decide) hd harity
  exact ⟨hwell, ⟨d, hd, harity⟩, herror, (hresult.2.1 _ _ herror).2⟩

end Catalog

end ShapeLedger
