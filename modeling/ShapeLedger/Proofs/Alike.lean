import Mathlib.Data.List.Perm.Basic
import ShapeLedger.Expansion
import ShapeLedger.Proofs.Pairing
import ShapeLedger.Proofs.Tables

/-!
Expansion trees up to the order of members. Two trees are alike if they bear
the same names everywhere, hold the arguments of collections in the same order
and the members of composites in some order. Alike trees have the same text:
the sort over whole segments forgets the order of members and nothing else
depends on it.
-/

namespace ShapeLedger

namespace Expansion

/-- Induction over a tree, with a hypothesis for every tree right below it. -/
@[induction_eliminator] theorem nodeInduction {P : Expansion → Prop}
    (bare : ∀ n, P (.bare n))
    (collection : ∀ n es, (∀ e ∈ es, P e) → P (.collection n es))
    (composite : ∀ n ms, (∀ m ∈ ms, P m.2) → P (.composite n ms)) :
    (e : Expansion) → P e
  | .bare n => bare n
  | .collection n es => collection n es fun e _ => nodeInduction bare collection composite e
  | .composite n ms => composite n ms fun m _ => nodeInduction bare collection composite m.2
termination_by e => sizeOf e
decreasing_by
  · have := List.sizeOf_lt_of_mem ‹e ∈ es›
    simp only [Expansion.collection.sizeOf_spec]
    omega
  · have hm := List.sizeOf_lt_of_mem ‹m ∈ ms›
    obtain ⟨name, tree⟩ := m
    simp only [Expansion.composite.sizeOf_spec, Prod.mk.sizeOf_spec] at hm ⊢
    omega

inductive Alike : Expansion → Expansion → Prop
  | bare (n : String) : Alike (.bare n) (.bare n)
  | collection (n : String) {as bs : List Expansion} (arguments : List.Forall₂ Alike as bs) :
    Alike (.collection n as) (.collection n bs)
  | composite (n : String) {ms ms' ns : List (String × Expansion)} (order : ms.Perm ms')
    (names : ms'.map Prod.fst = ns.map Prod.fst)
    (trees : List.Forall₂ Alike (ms'.map Prod.snd) (ns.map Prod.snd)) :
    Alike (.composite n ms) (.composite n ns)

def name : Expansion → String
  | .bare n => n
  | .collection n _ => n
  | .composite n _ => n

theorem Alike.name_eq {e e' : Expansion} (h : e.Alike e') : e.name = e'.name := by
  cases h <;> rfl

def MemberAlike (x y : String × Expansion) : Prop := x.1 = y.1 ∧ x.2.Alike y.2

theorem forall₂_memberAlike_iff {ms ns : List (String × Expansion)} :
    List.Forall₂ MemberAlike ms ns ↔
      ms.map Prod.fst = ns.map Prod.fst ∧
        List.Forall₂ Alike (ms.map Prod.snd) (ns.map Prod.snd) := by
  induction ms generalizing ns with
  | nil => cases ns <;> simp
  | cons m ms ih =>
    cases ns with
    | nil => simp
    | cons n ns =>
      simp only [List.forall₂_cons, List.map_cons, List.cons.injEq, ih, MemberAlike]
      tauto

theorem Alike.of_members {n : String} {ms ms' ns : List (String × Expansion)}
    (order : ms.Perm ms') (members : List.Forall₂ MemberAlike ms' ns) :
    Alike (.composite n ms) (.composite n ns) :=
  .composite n order (forall₂_memberAlike_iff.mp members).1 (forall₂_memberAlike_iff.mp members).2

/-- Composites are alike if their members are in some order of each. -/
theorem Alike.of_perm_members {n : String} {ms ms' ns ns' : List (String × Expansion)}
    (hms : ms.Perm ms') (hns : ns.Perm ns') (members : List.Forall₂ MemberAlike ms' ns') :
    Alike (.composite n ms) (.composite n ns) := by
  obtain ⟨ws, hws, hperm⟩ := List.perm_comp_forall₂ hns members.flip
  exact .of_members (hms.trans hperm.symm) hws.flip

/-- What a tree that is alike to a composite looks like. -/
theorem Alike.members {n : String} {ms : List (String × Expansion)} {e : Expansion}
    (h : Alike (.composite n ms) e) :
    ∃ ms' ns, e = .composite n ns ∧ ms.Perm ms' ∧ List.Forall₂ MemberAlike ms' ns := by
  cases h with
  | composite _ order names trees =>
    exact ⟨_, _, rfl, order, forall₂_memberAlike_iff.mpr ⟨names, trees⟩⟩

theorem Alike.exists_member {n n' : String} {ms ns : List (String × Expansion)}
    (h : Alike (.composite n ms) (.composite n' ns)) {m : String × Expansion} (hm : m ∈ ms) :
    ∃ m' ∈ ns, MemberAlike m m' := by
  obtain ⟨ms', ns', heq, order, members⟩ := h.members
  cases heq
  exact exists_mem_of_forall₂_left members (order.mem_iff.mp hm)

/-! ### The text of alike trees -/

/-- The text of one member: its tree, a dash and its name. -/
def segment (m : String × Expansion) : String := m.2.render ++ "-" ++ m.1

theorem segment_eq_of_memberAlike {x y : String × Expansion} (name : x.1 = y.1)
    (tree : x.2.render = y.2.render) : segment x = segment y := by
  rw [segment, segment, name, tree]

theorem joinSorted_eq_of_perm {l l' : List String} (h : l.Perm l') :
    joinSorted l = joinSorted l' := by
  let le : String → String → Bool := fun a b => decide (a ≤ b)
  have hperm : (l.mergeSort le).Perm (l'.mergeSort le) :=
    ((List.mergeSort_perm l le).trans h).trans (List.mergeSort_perm l' le).symm
  have heq : l.mergeSort le = l'.mergeSort le :=
    hperm.eq_of_pairwise (fun _ _ _ _ => String.le_antisymm) (NameTable.pairwise_mergeSort id l)
      (NameTable.pairwise_mergeSort id l')
  rw [joinSorted, heq, joinSorted]

/-- The sorted segments are the segments of the members in some order. -/
theorem exists_perm_joinSorted (ms : List (String × Expansion)) :
    ∃ ms', ms.Perm ms' ∧ joinSorted (segments ms) = "|".intercalate (ms'.map segment) := by
  let le : String → String → Bool := fun a b => decide (a ≤ b)
  -- The order in which the sort puts the segments is one of the members as well.
  refine ⟨ms.mergeSort fun x y => le (segment x) (segment y), ?_, ?_⟩
  · exact (List.mergeSort_perm ms _).symm
  · rw [List.map_mergeSort (s := le) fun _ _ _ _ => rfl, segments_eq_map]
    rfl

theorem joinSorted_segments_ne_empty {xs : List (String × Expansion)} (h : xs ≠ []) :
    joinSorted (segments xs) ≠ "" := by
  obtain ⟨ms, hperm, hjoin⟩ := exists_perm_joinSorted xs
  have hms : ms ≠ [] := by
    rintro rfl
    exact h hperm.eq_nil
  obtain ⟨m, ms, rfl⟩ := List.exists_cons_of_ne_nil hms
  have hsegment : segment m ≠ "" := by
    rw [segment]
    simp
  rw [hjoin, List.map_cons]
  cases ms with
  | nil => simpa using hsegment
  | cons m' ms => simp [String.intercalate_cons_cons]

theorem joinSorted_segments_eq {ms ms' ns : List (String × Expansion)} (order : ms.Perm ms')
    (members : List.Forall₂ (fun x y => segment x = segment y) ms' ns) :
    joinSorted (segments ms) = joinSorted (segments ns) := by
  have hmap : ms'.map segment = ns.map segment := by
    rw [← List.forall₂_eq_eq_eq, List.forall₂_map_left_iff, List.forall₂_map_right_iff]
    exact members
  rw [segments_eq_map, segments_eq_map]
  refine joinSorted_eq_of_perm ?_
  change (ms.map segment).Perm (ns.map segment)
  rw [← hmap]
  exact order.map segment

theorem map_render_eq {es es' : List Expansion}
    (h : List.Forall₂ (fun e e' => e.render = e'.render) es es') :
    es.map render = es'.map render := by
  rw [← List.forall₂_eq_eq_eq, List.forall₂_map_left_iff, List.forall₂_map_right_iff]
  exact h

theorem Alike.render_eq {e e' : Expansion} (h : e.Alike e') : e.render = e'.render := by
  induction e generalizing e' with
  | bare n => cases h; rfl
  | collection n es ih =>
    cases h with
    | collection _ arguments =>
      have harguments := (List.forall₂_and_left _ _).mpr ⟨ih, arguments⟩
      have htexts := map_render_eq (harguments.imp fun e e' hee => hee.1 hee.2)
      simp only [render, renderAll_eq_map, htexts]
  | composite n ms ih =>
    obtain ⟨ms', ns, rfl, order, members⟩ := h.members
    have ih' : ∀ m ∈ ms', ∀ {e'}, m.2.Alike e' → m.2.render = e'.render :=
      fun m hm => ih m (order.mem_iff.mpr hm)
    have hmembers := (List.forall₂_and_left _ _).mpr ⟨ih', members⟩
    have hsegments := joinSorted_segments_eq order
      (hmembers.imp fun x y hxy => segment_eq_of_memberAlike hxy.2.1 (hxy.1 hxy.2.2))
    simp only [render, hsegments]

theorem Alike.body_eq {e e' : Expansion} (h : e.Alike e') : e.body = e'.body := by
  cases e with
  | bare n => cases h; rfl
  | collection n es =>
    cases h with
    | collection _ arguments =>
      have htexts := map_render_eq (arguments.imp fun _ _ => Alike.render_eq)
      simp only [body, renderAll_eq_map, htexts]
  | composite n ms =>
    obtain ⟨ms', ns, rfl, order, members⟩ := h.members
    exact joinSorted_segments_eq order
      (members.imp fun x y hxy => segment_eq_of_memberAlike hxy.1 hxy.2.render_eq)

end Expansion

end ShapeLedger
