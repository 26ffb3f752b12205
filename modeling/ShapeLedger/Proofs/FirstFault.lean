import ShapeLedger.Proofs.Saturation

/-!
The faults of a reference. A node of a reference is at fault or not whatever
its arguments are: a name may be unknown or have another number of arguments
than it takes, and a parameter may be unbound. Resolution looks at the nodes in
the order in which they are written, each before its arguments, so its fault is
that of the first node at fault, and without one it finds a type.
-/

namespace ShapeLedger

/-- The fault, if the result is one. -/
def faultOf? {ε α : Type} : Except ε α → Option ε
  | .error e => some e
  | .ok _ => none

section

variable {ε α β : Type} {x : Except ε α}

theorem faultOf?_eq_none_iff : faultOf? x = none ↔ ∃ a, x = .ok a := by
  cases x <;> simp [faultOf?]

theorem faultOf?_eq_some_iff {e : ε} : faultOf? x = some e ↔ x = .error e := by
  cases x <;> simp [faultOf?]

@[simp] theorem faultOf?_map (f : α → β) : faultOf? (x.map f) = faultOf? x := by
  cases x <;> rfl

end

namespace TypeRef

mutual

/-- The nodes of a reference from left to right, each before its arguments. -/
def nodes : TypeRef → List TypeRef
  | .param index => [.param index]
  | .named name arguments => .named name arguments :: nodesAll arguments

def nodesAll : List TypeRef → List TypeRef
  | [] => []
  | r :: rs => r.nodes ++ nodesAll rs

end

/-- The fault of a node itself where so many parameters are bound. -/
def ownFault? (c : Catalog) (bound : Nat) (place : String) : TypeRef → Option ShapeError
  | .param index => if index.toNat < bound then none else some (.unboundParameter index place)
  | .named name arguments =>
    match c.find? name with
    | none => some (.unresolvableType name place)
    | some definition =>
      if definition.genericArity.toNat = arguments.length then none
      else some (.genericArityMismatch name definition.genericArity arguments.length)

variable {c : Catalog} {bound : Nat} {place : String}

theorem ownFault?_param_eq_none_iff {index : UInt64} :
    (param index).ownFault? c bound place = none ↔ index.toNat < bound := by
  rw [ownFault?]
  split <;> simp [*]

theorem ownFault?_named_eq_none_iff {name : String} {arguments : List TypeRef} :
    (named name arguments).ownFault? c bound place = none ↔
      ∃ d, c.find? name = some d ∧ d.genericArity.toNat = arguments.length := by
  rw [ownFault?]
  cases c.find? name <;> simp

mutual

/-- Resolution comes to the first fault of a node, if there is one. -/
theorem faultOf?_resolve (c : Catalog) (context : List Descriptor) (place : String)
    (r : TypeRef) : faultOf? (r.resolve c context place) =
      r.nodes.findSome? (ownFault? c context.length place) := by
  cases r with
  | param index =>
    rw [resolve, nodes, List.findSome?_singleton, ownFault?]
    by_cases hindex : index.toNat < context.length
    · rw [List.getElem?_eq_getElem hindex, if_pos hindex]
      rfl
    · rw [List.getElem?_eq_none (Nat.le_of_not_lt hindex), if_neg hindex]
      rfl
  | named name arguments =>
    rw [resolve, nodes, List.findSome?_cons, ownFault?]
    cases c.find? name with
    | none => rfl
    | some definition =>
      by_cases harity : definition.genericArity.toNat = arguments.length
      · simp only [if_pos harity, faultOf?_map]
        exact faultOf?_resolveAll c context place arguments
      · simp only [if_neg harity]
        rfl

theorem faultOf?_resolveAll (c : Catalog) (context : List Descriptor) (place : String)
    (rs : List TypeRef) : faultOf? (resolveAll c context place rs) =
      (nodesAll rs).findSome? (ownFault? c context.length place) := by
  cases rs with
  | nil => rfl
  | cons r rs =>
    rw [resolveAll, nodesAll, List.findSome?_append, ← faultOf?_resolve c context place r,
      ← faultOf?_resolveAll c context place rs]
    cases r.resolve c context place with
    | error e => rfl
    | ok d => exact faultOf?_map _

end

/-- A type is found if and only if no node is at fault. -/
theorem exists_resolve_iff {context : List Descriptor} {r : TypeRef} :
    (∃ d, r.resolve c context place = .ok d) ↔
      ∀ s ∈ r.nodes, s.ownFault? c context.length place = none := by
  rw [← faultOf?_eq_none_iff, faultOf?_resolve, List.findSome?_eq_none_iff]

/-- The types that parameters stand for in a reference: the arguments of the type in which it
stands, or none if it stands in no type. -/
def bindings (owner : Option Descriptor) : List Descriptor := owner.elim [] Descriptor.arguments

/-- Resolution, in no type or in a constructed one, finds a type with the right number of
arguments everywhere if every name of the reference is listed and has as many arguments as it
takes and every parameter is bound. Otherwise it gives the fault of the first node at fault. -/
theorem resolve_faults (c : Catalog) {owner : Option Descriptor}
    (howner : ∀ o ∈ owner, o.Constructed c) (place : String) (r : TypeRef) :
    ((∃ d, r.resolve c (bindings owner) place = .ok d) ↔
      (∀ name arguments, named name arguments ∈ r.nodes →
        ∃ d, c.find? name = some d ∧ d.genericArity.toNat = arguments.length) ∧
      ∀ index, param index ∈ r.nodes → index.toNat < (bindings owner).length) ∧
    (∀ d, r.resolve c (bindings owner) place = .ok d → d.Saturated) ∧
    ∀ e, r.resolve c (bindings owner) place = .error e ↔
      ∃ before node after, r.nodes = before ++ node :: after ∧
        node.ownFault? c (bindings owner).length place = some e ∧
        ∀ s ∈ before, s.ownFault? c (bindings owner).length place = none := by
  refine ⟨?_, fun d hd => ?_, fun e => ?_⟩
  · rw [exists_resolve_iff]
    constructor
    · intro h
      exact ⟨fun name arguments hs => ownFault?_named_eq_none_iff.mp (h _ hs),
        fun index hs => ownFault?_param_eq_none_iff.mp (h _ hs)⟩
    · rintro ⟨hnamed, hparam⟩ s hs
      cases s with
      | param index => exact ownFault?_param_eq_none_iff.mpr (hparam index hs)
      | named name arguments => exact ownFault?_named_eq_none_iff.mpr (hnamed name arguments hs)
  · cases owner with
    | none => exact saturated_of_resolve_nil hd
    | some o => exact (Descriptor.Constructed.inside (howner o rfl) hd).saturated
  · rw [← faultOf?_eq_some_iff, faultOf?_resolve, List.findSome?_eq_some_iff]

def pairDefinition : Definition :=
  { name := "Pair", genericArity := 2, members :=
      [⟨"First", .param 0, false, true, true⟩, ⟨"Second", .param 1, false, true, true⟩] }

def pairs : Catalog :=
  ⟨[{ name := "Byte" }, pairDefinition],
    List.pairwise_map.mp (show ["Byte", "Pair"].Pairwise (· < ·) by decide)⟩

/-- A pair of a byte and a pair of bytes. -/
def nestedPair : Descriptor :=
  let byte : Descriptor := ⟨{ name := "Byte" }, []⟩
  ⟨pairDefinition, [byte, ⟨pairDefinition, [byte, byte]⟩]⟩

def nestedPairReference : TypeRef :=
  named "Pair" [named "Byte" [], named "Pair" [named "Byte" [], named "Byte" []]]

theorem resolve_nestedPair (place : String) :
    nestedPairReference.resolve pairs [] place = .ok nestedPair := by
  rfl

/-- Inside the nested pair, a pair turned round, and a reference with three faults: the pair that
has one argument is at fault before its argument is, and before the unknown name behind it. -/
theorem resolve_in_nestedPair :
    nestedPair.Constructed pairs ∧
      (∃ d, (named "Pair" [param 1, param 0]).resolve pairs nestedPair.arguments "Pair.Item" =
        .ok d ∧ d.Saturated) ∧
      (named "Pair" [param 1, named "Pair" [named "Pair" [param 7], named "Missing" []]]).resolve
        pairs nestedPair.arguments "Pair.Item" = .error (.genericArityMismatch "Pair" 2 1) := by
  have howner : nestedPair.Constructed pairs := .closed (resolve_nestedPair "Root.Item")
  have hall : ∀ o ∈ some nestedPair, o.Constructed pairs := fun o ho =>
    Option.some.inj ho ▸ howner
  have hturned := resolve_faults pairs hall "Pair.Item" (named "Pair" [param 1, param 0])
  have hnodes : (named "Pair" [param 1, param 0]).nodes =
      [named "Pair" [param 1, param 0], param 1, param 0] := rfl
  have hsound : ∃ d, (named "Pair" [param 1, param 0]).resolve pairs nestedPair.arguments
      "Pair.Item" = .ok d := by
    apply hturned.1.mpr
    rw [hnodes]
    constructor
    · intro name arguments hs
      obtain ⟨rfl, rfl⟩ : name = "Pair" ∧ arguments = [param 1, param 0] := by simpa using hs
      exact ⟨pairDefinition, rfl, rfl⟩
    · intro index hs
      have hindex : index = 1 ∨ index = 0 := by simpa using hs
      rcases hindex with rfl | rfl <;> decide
  obtain ⟨d, hd⟩ := hsound
  refine ⟨howner, ⟨d, hd, hturned.2.1 d hd⟩, ?_⟩
  apply ((resolve_faults pairs hall "Pair.Item" _).2.2 _).mpr
  refine ⟨[_, param 1, _], named "Pair" [param 7], [param 7, named "Missing" []], rfl, rfl, ?_⟩
  simp only [List.forall_mem_cons]
  exact ⟨rfl, rfl, rfl, List.forall_mem_nil _⟩

end TypeRef

end ShapeLedger
