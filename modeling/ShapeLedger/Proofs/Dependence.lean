import ShapeLedger.Proofs.Locality

/-!
What a fingerprint depends on. The walk begins at the names of a reference, and
each definition that it looks into leads it to the names in the value types of
the selected members. Every type that it builds is made of names that it was
led to in this way, and it looks up no other name, found or missing. So two
catalogs that show the same at these names give the same fingerprint or the
same fault, whatever else they hold.
-/

namespace ShapeLedger

/-- The walk looks at the members of the types of this definition. The string type is never looked
into, and of a collection only the arguments count. -/
def Definition.LookedInto (d : Definition) (cfg : Config) : Prop :=
  d.isString cfg = false ∧ ¬(d.isEnumerable cfg = true ∧ 0 < d.genericArity)

instance (d : Definition) (cfg : Config) : Decidable (d.LookedInto cfg) :=
  inferInstanceAs (Decidable (_ ∧ ¬_))

/-- What the walk sees of two definitions of one name is the same. -/
structure Definition.SameShown (cfg : Config) (d d' : Definition) : Prop where
  genericArity : d.genericArity = d'.genericArity
  isEnumerable : d.isEnumerable cfg = d'.isEnumerable cfg
  selected : d.LookedInto cfg → SameViews (d.selected cfg) (d'.selected cfg)

/-- The names on which the fingerprint of `r` depends: those in `r`, and with a name whose
definition is looked into those in the value types of its selected members. -/
inductive TypeRef.Needs (c : Catalog) (cfg : Config) (r : TypeRef) : String → Prop
  | mentioned {n : String} (mem : n ∈ r.names) : Needs c cfg r n
  | member {name : String} (needed : Needs c cfg r name) {d : Definition}
    (listed : c.find? name = some d) (inside : d.LookedInto cfg) {m : Member}
    (selected : m ∈ d.selected cfg) {n : String} (mem : n ∈ m.valueType.names) : Needs c cfg r n

/-- No name is needed but for these reasons: a list that holds the names in `r` and is closed under
looking into definitions holds them all. -/
theorem TypeRef.Needs.mem_of_closed {c : Catalog} {cfg : Config} {r : TypeRef} {S : List String}
    (start : r.names ⊆ S) (closed : ∀ name ∈ S, ∀ d ∈ c.find? name, d.LookedInto cfg →
      ∀ m ∈ d.selected cfg, m.valueType.names ⊆ S)
    {n : String} (h : r.Needs c cfg n) : n ∈ S := by
  induction h with
  | mentioned mem => exact start mem
  | member _ listed inside selected mem ih => exact closed _ ih _ listed inside _ selected mem

/-- Two catalogs show the same at the names in `S`. -/
def Catalog.AgreeOn (S : String → Prop) (cfg : Config) (c c' : Catalog) : Prop :=
  ∀ n, S n → Option.Rel (Definition.SameShown cfg) (c.find? n) (c'.find? n)

namespace Definition

variable {cfg : Config} {d d' : Definition}

theorem SameShown.lookedInto_iff (h : d.SameShown cfg d') (hname : d.name = d'.name) :
    d.LookedInto cfg ↔ d'.LookedInto cfg := by
  rw [LookedInto, LookedInto, isString, isString, hname, h.isEnumerable, h.genericArity]

end Definition

namespace Descriptor

variable {cfg : Config} {d : Descriptor}

/-- A type has arguments if and only if its definition takes some. -/
theorem Saturated.lookedInto_iff (h : d.Saturated) : d.definition.LookedInto cfg ↔
    d.definition.isString cfg = false ∧
      (!d.arguments.isEmpty && d.definition.isEnumerable cfg) = false := by
  have hempty : d.arguments = [] ↔ ¬0 < d.definition.genericArity := by
    rw [UInt64.lt_iff_toNat_lt, h.arity, UInt64.toNat_zero, List.length_pos_iff, not_not]
  rw [Definition.LookedInto]
  cases d.definition.isEnumerable cfg <;> simp [hempty]

theorem Saturated.lookedInto_of_composite (h : d.Saturated) {mode : SelectionMode}
    {ms : List Member} (hkind : d.category cfg = .composite mode ms) :
    d.definition.LookedInto cfg := by
  rw [h.lookedInto_iff]
  rw [category] at hkind
  split at hkind
  · cases hkind
  · cases hkind
  · exact ⟨‹_›, ‹_›⟩

end Descriptor

namespace Catalog

variable {c c' : Catalog} {cfg : Config} {r : TypeRef}

/-- What the two walks hold of a needed name: the definitions that the catalogs file under it. -/
structure NeededPair (c c' : Catalog) (cfg : Config) (r : TypeRef) (d d' : Definition) : Prop
    extends d.SameShown cfg d' where
  name : d.name = d'.name
  listed : c.find? d.name = some d
  needed : r.Needs c cfg d.name

theorem keepsHead_neededPair : KeepsHead (NeededPair c c' cfg r) :=
  ⟨fun h => h.name, fun h => h.genericArity⟩

theorem AgreeOn.find? (h : AgreeOn (r.Needs c cfg) cfg c c') {n : String}
    (hn : r.Needs c cfg n) : Option.Rel (NeededPair c c' cfg r) (c.find? n) (c'.find? n) := by
  have hrel := h n hn
  generalize hd : c.find? n = x at hrel
  generalize hd' : c'.find? n = y at hrel
  cases hrel with
  | none => exact .none
  | some hshown =>
    obtain rfl := NameTable.nameOf_of_find? hd
    exact .some { hshown with name := (NameTable.nameOf_of_find? hd').symm, listed := hd,
                              needed := hn }

/-- Needing is the same in both catalogs, since every step is taken at a name where they agree. -/
theorem AgreeOn.needs_iff (h : AgreeOn (r.Needs c cfg) cfg c c') (n : String) :
    r.Needs c cfg n ↔ r.Needs c' cfg n := by
  constructor
  · intro hn
    induction hn with
    | mentioned mem => exact .mentioned mem
    | member needed listed inside selected mem ih =>
      have hrel := h.find? needed
      rw [listed] at hrel
      generalize hd' : c'.find? _ = y at hrel
      cases hrel with
      | some hpair =>
        obtain ⟨m', hm', -, hvalue⟩ := exists_mem_of_forall₂_left (hpair.selected inside) selected
        exact .member ih hd' ((hpair.lookedInto_iff hpair.name).mp inside) hm' (hvalue ▸ mem)
  · intro hn
    induction hn with
    | mentioned mem => exact .mentioned mem
    | member _ listed inside selected mem ih =>
      have hrel := h.find? ih
      rw [listed] at hrel
      generalize hd : c.find? _ = x at hrel
      cases hrel with
      | some hpair =>
        have inside' := (hpair.lookedInto_iff hpair.name).mpr inside
        obtain ⟨m, hm, -, hvalue⟩ := exists_mem_of_forall₂ (hpair.selected inside') selected
        exact .member ih hd inside' hm (hvalue ▸ mem)

theorem expansion_eq_of_agreeOn (h : AgreeOn (r.Needs c cfg) cfg c c') :
    c.expansion cfg r = c'.expansion cfg r := by
  refine expansion_eq_of_related keepsHead_neededPair ?_ ?_ fun n hn => h.find? (.mentioned hn)
  · intro d d' hsat hd
    have hpair := hd.definition
    refine Descriptor.category_corresponds SameViews.eq_nil_iff ?_ hd.isEmpty_arguments
      hpair.isEnumerable fun hstring hargs => ?_
    · rw [Definition.isString, Definition.isString, hpair.name]
    · exact hpair.selected (hsat.lookedInto_iff.mpr ⟨hstring, hargs⟩)
  · -- A name in a selected member is needed because the name of the owner is.
    intro d d' hsat hd mode ms hkind m hm n hn
    have hpair := hd.definition
    obtain ⟨rfl, -⟩ := Descriptor.members_of_category hkind
    exact h.find? (.member hpair.needed hpair.listed (hsat.lookedInto_of_composite hkind) hm hn)

/-- Catalogs that show the same at the names that `r` needs give it the same fingerprints and the
same faults, and it needs the same names in both. -/
theorem fingerprint_eq_of_agreeOn (h : AgreeOn (r.Needs c cfg) cfg c c') :
    c.fingerprint cfg r = c'.fingerprint cfg r ∧
      c.memberFingerprint cfg r = c'.memberFingerprint cfg r ∧
      ∀ n, r.Needs c cfg n ↔ r.Needs c' cfg n := by
  have hsame := expansion_eq_of_agreeOn h
  refine ⟨?_, ?_, h.needs_iff⟩
  · rw [fingerprint, fingerprint, hsame]
  · rw [memberFingerprint, memberFingerprint, hsame]

def orderConfig : Config :=
  { stringType := "Text", collectionContracts := ["Sequence"] }

/-- An order with a list of lines. What the parameters stand for is not seen: other contracts and
private members of the order, members of the list, and a definition that nothing refers to. -/
def orders (contracts : List String) (notes extras : List Member) : Catalog :=
  ⟨[{ name := "Int" },
    { name := "Line", members := [⟨"Count", .named "Int" [], false, true, true⟩] },
    { name := "List", genericArity := 1, contracts := ["Sequence"], members := extras },
    { name := "Order", contracts,
      members := notes ++ [⟨"Lines", .named "List" [.named "Line" []], false, true, true⟩] },
    { name := "Unused", members := extras }],
    List.pairwise_map.mp (show ["Int", "Line", "List", "Order", "Unused"].Pairwise (· < ·)
      by decide)⟩

/-- A private member of a type that no catalog has. -/
def orderNote : Member := ⟨"Note", .named "Missing" [], false, false, true⟩

/-- A member that could not be resolved. -/
def headMember : Member := ⟨"Head", .param 5, false, true, true⟩

theorem agreeOn_orders : AgreeOn ((TypeRef.named "Order" []).Needs (orders [] [] []) orderConfig)
    orderConfig (orders [] [] []) (orders ["Audited"] [orderNote] [headMember]) := by
  intro n hn
  have hmem : n ∈ ["Int", "Line", "List", "Order"] := hn.mem_of_closed (by decide) (by decide)
  have hself (ms : List Member) : SameViews ms ms := List.forall₂_same.mpr fun _ _ => ⟨rfl, rfl⟩
  simp only [List.mem_cons, List.not_mem_nil, or_false] at hmem
  rcases hmem with rfl | rfl | rfl | rfl
  · exact .some ⟨rfl, by decide, fun _ => hself _⟩
  · exact .some ⟨rfl, by decide, fun _ => hself _⟩
  · exact .some ⟨rfl, by decide, fun hinside => absurd hinside (by decide)⟩
  · exact .some ⟨rfl, by decide, fun _ => hself _⟩

theorem fingerprint_orders_eq :
    AgreeOn ((TypeRef.named "Order" []).Needs (orders [] [] []) orderConfig) orderConfig
        (orders [] [] []) (orders ["Audited"] [orderNote] [headMember]) ∧
      (orders ["Audited"] [orderNote] [headMember]).fingerprint orderConfig (.named "Order" []) =
        .ok "List`1(Line(Int-Count))-Lines" := by
  have hplain : (orders [] [] []).fingerprint orderConfig (.named "Order" []) =
      .ok "List`1(Line(Int-Count))-Lines" := by cbv
  have hsame := fingerprint_eq_of_agreeOn agreeOn_orders
  exact ⟨agreeOn_orders, hsame.1.symm.trans hplain⟩

end Catalog

end ShapeLedger
