import ShapeLedger.Proofs.FirstFault
import ShapeLedger.Proofs.Occurrence
import ShapeLedger.Proofs.Visits

/-!
Resolving by substitution. A reference inside a constructed type means what it
means in no type once the arguments of the type are written in place of its
parameters. So wherever the walk has got to, there is a reference for the type
it looks at that stands in no type, and a walk that writes such references down
and resolves nothing else finds the same trees and the same faults.
-/

namespace ShapeLedger

namespace TypeRef

mutual

/-- The arguments in place of the parameters. Parameters beyond them stay. -/
def subst (arguments : List TypeRef) : TypeRef → TypeRef
  | .param index => arguments[index.toNat]?.getD (.param index)
  | .named name inner => .named name (substAll arguments inner)

def substAll (arguments : List TypeRef) : List TypeRef → List TypeRef
  | [] => []
  | r :: rs => r.subst arguments :: substAll arguments rs

end

theorem length_substAll (arguments rs : List TypeRef) :
    (substAll arguments rs).length = rs.length := by
  induction rs with
  | nil => rfl
  | cons r rs ih => rw [substAll, List.length_cons, List.length_cons, ih]

def arguments : TypeRef → List TypeRef
  | .param _ => []
  | .named _ arguments => arguments

/-- The reference at the end of a chain of references, each of which stands in the type of the one
before it: in place of its parameters are the arguments of what that one has become. -/
def along (chain : List (String × TypeRef)) (r : TypeRef) : TypeRef :=
  chain.foldl (fun owner x => x.2.subst owner.arguments) r

end TypeRef

/-- The type at the end of a chain of references, each of which stands at its place in the type of
the one before it. -/
def Descriptor.along (c : Catalog) (chain : List (String × TypeRef)) (d : Descriptor) :
    Except ShapeError Descriptor :=
  chain.foldlM (fun owner x => x.2.resolve c owner.arguments x.1) d

namespace TypeRef

variable {c : Catalog} {place : String}

mutual

theorem resolve_subst {arguments : List TypeRef} {ds : List Descriptor}
    (h : List.Forall₂ (fun s d => s.resolve c [] place = .ok d) arguments ds) (place' : String)
    (r : TypeRef) : r.resolve c ds place' = (r.subst arguments).resolve c [] place' := by
  cases r with
  | param index =>
    have hindex := getElem?_related h index.toNat
    rw [resolve, subst]
    generalize arguments[index.toNat]? = o at hindex ⊢
    generalize ds[index.toNat]? = o' at hindex ⊢
    cases hindex with
    | none => rfl
    | some hd => exact (resolve_of_place place' hd).symm
  | named name inner =>
    rw [resolve, subst, resolve, length_substAll, resolveAll_subst h place' inner]

theorem resolveAll_subst {arguments : List TypeRef} {ds : List Descriptor}
    (h : List.Forall₂ (fun s d => s.resolve c [] place = .ok d) arguments ds) (place' : String)
    (rs : List TypeRef) :
    resolveAll c ds place' rs = resolveAll c [] place' (substAll arguments rs) := by
  cases rs with
  | nil => rfl
  | cons r rs =>
    rw [resolveAll, substAll, resolveAll, resolve_subst h place' r, resolveAll_subst h place' rs]

end

theorem resolve_arguments {r : TypeRef} {d : Descriptor} (h : r.resolve c [] place = .ok d) :
    List.Forall₂ (fun s a => s.resolve c [] place = .ok a) r.arguments d.arguments := by
  cases r with
  | param index => cases h
  | named name arguments =>
    rw [resolve] at h
    split at h
    · cases h
    · split at h
      · obtain ⟨ds, hds, rfl⟩ := map_eq_ok_iff.mp h
        exact resolveAll_eq_ok_iff.mp hds
      · cases h

/-- Inside the type of a reference, another one means what it means in no type once the arguments
of the first are in place of its parameters. -/
theorem resolve_inside {r : TypeRef} {d : Descriptor} (h : r.resolve c [] place = .ok d)
    (place' : String) (t : TypeRef) :
    t.resolve c d.arguments place' = (t.subst r.arguments).resolve c [] place' :=
  resolve_subst (resolve_arguments h) place' t

theorem resolve_along {r : TypeRef} {d d' : Descriptor} {chain : List (String × TypeRef)}
    (h : r.resolve c [] place = .ok d) (hchain : d.along c chain = .ok d') (place' : String) :
    (r.along chain).resolve c [] place' = .ok d' := by
  induction chain generalizing r d place with
  | nil =>
    cases hchain
    exact resolve_of_place place' h
  | cons x chain ih =>
    rw [Descriptor.along, List.foldlM_cons] at hchain
    cases hx : x.2.resolve c d.arguments x.1 with
    | error e =>
      rw [hx] at hchain
      cases hchain
    | ok v =>
      rw [hx] at hchain
      rw [resolve_inside h] at hx
      exact ih hx hchain

end TypeRef

/-- Every constructed type is what a reference in no type resolves to. -/
theorem Descriptor.Constructed.exists_closed {c : Catalog} {d : Descriptor}
    (h : d.Constructed c) : ∃ r : TypeRef, ∀ place, r.resolve c [] place = .ok d := by
  induction h with
  | @closed r _ _ value => exact ⟨r, fun place => TypeRef.resolve_of_place place value⟩
  | @inside owner _ r place _ value ih =>
    obtain ⟨s, hs⟩ := ih
    rw [TypeRef.resolve_inside (hs place)] at value
    exact ⟨_, fun place' => TypeRef.resolve_of_place place' value⟩

/-! ### The walk without contexts -/

def Member.subst (arguments : List TypeRef) (m : Member) : Member :=
  { m with valueType := m.valueType.subst arguments }

/-- The definition with the arguments written in place of its parameters. -/
def Definition.subst (arguments : List TypeRef) (d : Definition) : Definition :=
  { d with members := d.members.map (Member.subst arguments) }

theorem Definition.selected_subst (d : Definition) (arguments : List TypeRef) (cfg : Config) :
    (d.subst arguments).selected cfg = (d.selected cfg).map (Member.subst arguments) := by
  have hunreserved : (d.subst arguments).unreserved cfg =
      (d.unreserved cfg).map (Member.subst arguments) := List.filter_map
  have hmode : (d.subst arguments).selectionMode cfg = d.selectionMode cfg := by
    rw [selectionMode, selectionMode, hunreserved, List.any_map]
    rfl
  rw [selected, selected, hunreserved, hmode, List.filter_map]
  cases d.selectionMode cfg <;> rfl

namespace Catalog

/-- One step of a walk that resolves only references that stand in no type. It takes the members
of a type from its definition with the arguments of the reference written into it. -/
def closedStep (c : Catalog) (cfg : Config)
    (answer : Path → String → TypeRef → Except ShapeError Expansion) (path : Path)
    (place : String) (r : TypeRef) : Except ShapeError Expansion :=
  match r.resolve c [] place with
  | .error e => .error e
  | .ok d =>
    match path.holds d.pathKey, d.category cfg with
    | true, _ => .ok (.bare d.fullName)
    | false, .leaf => .ok (.bare d.fullName)
    | false, .collection => (r.arguments.mapM (answer path place)).map (.collection d.fullName)
    | false, .composite _ _ =>
      if path.expansions d.name < cfg.maxGenericNesting then
        (((d.definition.subst r.arguments).selected cfg).mapM fun m =>
          (answer (path.push d) (d.fullName ++ "." ++ m.name) m.valueType).map (m.name, ·)).map
            (.composite d.fullName)
      else .error (.depthLimitExceeded d.fullName cfg.maxGenericNesting)

variable {c : Catalog} {cfg : Config} {path : Path} {place : String} {r : TypeRef} {d : Descriptor}
  {answer : Path → String → TypeRef → Except ShapeError Expansion}

/-- A step finds what the walk finds, if the answers that it asks for are those of the walk. -/
theorem closedStep_eq_expand (h : r.resolve c [] place = .ok d) (hd : d.From c)
    (arguments : ∀ a ∈ d.arguments, ∀ s, s.resolve c [] place = .ok a →
      ∀ ha, answer path place s = a.expand c cfg path ha)
    (members : path.expansions d.name < cfg.maxGenericNesting → ∀ m v, d.memberType c m = .ok v →
      ∀ place' s, s.resolve c [] place' = .ok v →
        ∀ hv, answer (path.push d) place' s = v.expand c cfg (path.push d) hv)
    (fault : ∀ place' s err, s.resolve c [] place' = .error err →
      answer (path.push d) place' s = .error err) :
    c.closedStep cfg answer path place r = d.expand c cfg path hd := by
  rw [closedStep, h, Descriptor.expand]
  dsimp only
  cases path.holds d.pathKey with
  | true => rfl
  | false =>
    cases kind : d.category cfg with
    | leaf => rfl
    | collection =>
      have hall := (List.forall₂_and_left _ _).mpr
        ⟨arguments, (TypeRef.resolve_arguments h).flip⟩
      exact congrArg (Except.map _)
        (Visit.mapM_eq_expandAll hd.arguments (hall.imp fun a s hs => hs.1 s hs.2))
    | composite mode ms =>
      by_cases room : path.expansions d.name < cfg.maxGenericNesting
      · obtain ⟨rfl, -⟩ := Descriptor.members_of_category kind
        simp only [room, if_true]
        rw [Definition.selected_subst, List.mapM_map]
        -- The value type of a member is resolved in `d`, its substituted form in no type.
        refine congrArg (Except.map _) (Visit.mapM_eq_expandMembers hd (fun m _ err herr => ?_)
          fun m _ v hv hfrom => ?_)
        · have hclosed := herr
          rw [Descriptor.memberType, TypeRef.resolve_inside h] at hclosed
          exact congrArg (Except.map _) (fault _ _ err hclosed)
        · have hclosed := hv
          rw [Descriptor.memberType, TypeRef.resolve_inside h] at hclosed
          exact congrArg (Except.map _) (members room m v hv _ _ hclosed hfrom)
      · simp only [room, if_false]

/-- What answers every reference as its step does is the walk. -/
theorem answer_eq_expansionBelow
    (h : ∀ path place r, answer path place r = c.closedStep cfg answer path place r)
    (path : Path) (place : String) (r : TypeRef) :
    answer path place r = c.expansionBelow cfg path place r := by
  have fault : ∀ path place r err, r.resolve c [] place = .error err →
      answer path place r = .error err := by
    intro path place r err herr
    rw [h, closedStep, herr]
  cases hr : r.resolve c [] place with
  | error err => rw [fault path place r err hr, expansionBelow_of_error hr]
  | ok d =>
    have hd : d.From c := TypeRef.from_of_resolve (List.forall_mem_nil _) hr
    rw [expansionBelow_of_ok hr hd]
    refine Descriptor.walkInduction (P := fun path d => ∀ place r, r.resolve c [] place = .ok d →
      ∀ hd, answer path place r = d.expand c cfg path hd) cfg
      (fun path d _ arguments members place r hr hd => ?_) path d hd place r hr hd
    rw [h]
    exact closedStep_eq_expand hr hd (fun a ha => arguments a ha place)
      (fun room m v hv => members room m v hv) (fault (path.push d))

theorem closedStep_expansionBelow (path : Path) (place : String) (r : TypeRef) :
    c.closedStep cfg (c.expansionBelow cfg) path place r = c.expansionBelow cfg path place r := by
  cases hr : r.resolve c [] place with
  | error err => rw [closedStep, hr, expansionBelow_of_error hr]
  | ok d =>
    have hd : d.From c := TypeRef.from_of_resolve (List.forall_mem_nil _) hr
    rw [expansionBelow_of_ok hr hd]
    exact closedStep_eq_expand hr hd (fun _ _ _ hs ha => expansionBelow_of_ok hs ha)
      (fun _ _ _ _ _ _ hs hv => expansionBelow_of_ok hs hv)
      fun _ _ _ hs => expansionBelow_of_error hs

/-- Resolving in a context is resolving without one after substitution, for single references,
along chains of them, and through a whole walk. -/
structure ResolvesBySubstitution (c : Catalog) : Prop where
  /-- In the type of a name with its arguments, types and faults are those of what `t` is with
  these arguments in it. -/
  inside : ∀ (name : String) (arguments : List TypeRef) (place : String) (d : Descriptor),
    (TypeRef.named name arguments).resolve c [] place = .ok d →
      ∀ (t : TypeRef) (place' : String),
        t.resolve c d.arguments place' = (t.subst arguments).resolve c [] place'
  /-- The same in the type at the end of a chain of contexts, and this type has the fingerprints
  of the reference that the chain leads to. -/
  chained : ∀ (r : TypeRef) (place : String) (d : Descriptor), r.resolve c [] place = .ok d →
    ∀ (chain : List (String × TypeRef)) (d' : Descriptor), d.along c chain = .ok d' →
      (∀ place', (r.along chain).resolve c [] place' = .ok d') ∧
      (∀ (t : TypeRef) (place' : String), t.resolve c d'.arguments place' =
        (t.subst (r.along chain).arguments).resolve c [] place') ∧
      ∀ (cfg : Config) (hd' : d'.From c),
        c.fingerprint cfg (r.along chain) = d'.shape c cfg hd' ∧
          c.memberFingerprint cfg (r.along chain) = d'.occurrence c cfg [] hd'
  /-- No context is left out. -/
  contexts : ∀ d : Descriptor, d.Constructed c →
    ∃ r : TypeRef, ∀ place, r.resolve c [] place = .ok d
  /-- The walk is the one that takes the members of substituted definitions and resolves nothing
  in a context. -/
  walk : ∀ (cfg : Config) (answer : Path → String → TypeRef → Except ShapeError Expansion),
    (∀ path place r, answer path place r = c.closedStep cfg answer path place r) ↔
      ∀ path place r, answer path place r = c.expansionBelow cfg path place r
  texts : ∀ (cfg : Config) (r : TypeRef),
    c.fingerprint cfg r = (c.expansionBelow cfg [] entryPoint r).map Expansion.body ∧
      c.memberFingerprint cfg r = (c.expansionBelow cfg [] entryPoint r).map Expansion.render

theorem resolvesBySubstitution (c : Catalog) : c.ResolvesBySubstitution where
  inside _ _ _ _ h t place' := TypeRef.resolve_inside h place' t
  chained r place d h chain d' hchain := by
    have hend := TypeRef.resolve_along h hchain
    refine ⟨hend, fun t place' => TypeRef.resolve_inside (hend place') place' t, ?_⟩
    intro cfg hd'
    exact ⟨fingerprint_of_resolve (hend entryPoint) hd',
      memberFingerprint_of_resolve (hend entryPoint) hd'⟩
  contexts d h := h.exists_closed
  walk cfg answer := by
    constructor
    · exact answer_eq_expansionBelow
    · intro h path place r
      obtain rfl : answer = c.expansionBelow cfg := by
        funext path place r
        exact h path place r
      exact (closedStep_expansionBelow path place r).symm
  texts cfg r := by
    rw [expansionBelow_entryPoint]
    exact ⟨rfl, rfl⟩

end Catalog

namespace TypeRef

/-- From a pair of a byte and a pair of bytes to its second value, and from there to a pair of the
parameters of that one. -/
def roundTrip : List (String × TypeRef) :=
  [("Pair`2.Second", .param 1),
    ("Pair`2.First", .named "Pair" [.param 1, .named "Pair" [.param 0, .param 1]])]

/-- The chain comes back to the type at which it starts, and so does the reference. In it a
parameter is replaced, and one that is unbound stays. -/
theorem chained_nestedPair :
    nestedPair.along pairs roundTrip = .ok nestedPair ∧
      (∀ place, (nestedPairReference.along roundTrip).resolve pairs [] place = .ok nestedPair) ∧
      (∀ place, (named "Pair" [param 1, param 2]).resolve pairs nestedPair.arguments place =
        (named "Pair" [named "Pair" [named "Byte" [], named "Byte" []], param 2]).resolve
          pairs [] place) ∧
      ∀ cfg (hd : nestedPair.From pairs),
        pairs.fingerprint cfg (nestedPairReference.along roundTrip) =
          nestedPair.shape pairs cfg hd := by
  have hchain : nestedPair.along pairs roundTrip = .ok nestedPair := rfl
  obtain ⟨hend, hinside, htexts⟩ := (Catalog.resolvesBySubstitution pairs).chained
    nestedPairReference "Root.Item" nestedPair (resolve_nestedPair _) roundTrip nestedPair hchain
  exact ⟨hchain, hend, hinside _, fun cfg hd => (htexts cfg hd).1⟩

end TypeRef

end ShapeLedger
