import Mathlib.Logic.Relation
import ShapeLedger.Proofs.Readability

/-!
A type inside another one. What is open matters to the walk only where it comes
to a type with the key or the definition of an open one. If no type that can be
reached has either, the walk finds what it would find with nothing open, so a
nested type is written as its own fingerprint in parentheses after its name, and
the fingerprint of a type is put together from those of its members.
-/

namespace ShapeLedger

open Relation (ReflTransGen)

namespace TypeRef

variable {c : Catalog} {context : List Descriptor}

mutual

/-- The place of a reference shows only in faults. -/
theorem resolve_of_place {place : String} (place' : String) {r : TypeRef} {d : Descriptor}
    (h : r.resolve c context place = .ok d) : r.resolve c context place' = .ok d := by
  cases r with
  | param index =>
    rw [resolve] at h ⊢
    split at h
    · exact h
    · cases h
  | named name arguments =>
    rw [resolve] at h ⊢
    split at h
    · cases h
    · split at h
      · rename_i harity
        obtain ⟨ds, hds, rfl⟩ := map_eq_ok_iff.mp h
        rw [if_pos harity]
        exact map_eq_ok_iff.mpr ⟨ds, resolveAll_of_place place' hds, rfl⟩
      · cases h

theorem resolveAll_of_place {place : String} (place' : String) {rs : List TypeRef}
    {ds : List Descriptor} (h : resolveAll c context place rs = .ok ds) :
    resolveAll c context place' rs = .ok ds := by
  cases rs with
  | nil => exact h
  | cons r rs =>
    rw [resolveAll] at h ⊢
    split at h
    · cases h
    · rename_i hd
      obtain ⟨ds', hds', rfl⟩ := map_eq_ok_iff.mp h
      rw [resolve_of_place place' hd]
      exact map_eq_ok_iff.mpr ⟨ds', resolveAll_of_place place' hds', rfl⟩

end

end TypeRef

theorem Path.holds_append (path outer : Path) (key : String) :
    holds (path ++ outer) key = (path.holds key || outer.holds key) :=
  List.any_append

theorem Path.expansions_append (path outer : Path) (name : String) :
    expansions (path ++ outer) name = path.expansions name + outer.expansions name :=
  List.countP_append

namespace Descriptor

/-- Where the walk goes on from `d`, whatever is open: to the arguments of a collection, and to
the value types of the members of a composite. -/
inductive Leads (c : Catalog) (cfg : Config) (d : Descriptor) : Descriptor → Prop
  | argument (kind : d.category cfg = .collection) {a : Descriptor} (mem : a ∈ d.arguments) :
    Leads c cfg d a
  | member {mode : SelectionMode} {ms : List Member} (kind : d.category cfg = .composite mode ms)
    {m : Member} (mem : m ∈ ms) {v : Descriptor} (value : d.memberType c m = .ok v) :
    Leads c cfg d v

/-- The type `t` can be reached from `d`, or is `d` itself. -/
def LeadsTo (c : Catalog) (cfg : Config) (d t : Descriptor) : Prop :=
  ReflTransGen (Leads c cfg) d t

/-- No type that can be reached from `d` has the key or the definition of an open one. -/
def Clear (c : Catalog) (cfg : Config) (path : Path) (d : Descriptor) : Prop :=
  ∀ t, d.LeadsTo c cfg t → ∀ o ∈ path, o.key ≠ t.pathKey ∧ o.name ≠ t.name

/-- The text of `d` as the type of a value, below the open types of `path`. -/
def occurrence (c : Catalog) (cfg : Config) (path : Path) (d : Descriptor) (hd : d.From c) :
    Except ShapeError String :=
  (d.expand c cfg path hd).map Expansion.render

/-- The fingerprint of `d`. -/
def shape (c : Catalog) (cfg : Config) (d : Descriptor) (hd : d.From c) :
    Except ShapeError String :=
  (d.expand c cfg [] hd).map Expansion.body

variable {c : Catalog} {cfg : Config} {path outer : Path} {d v : Descriptor}

theorem Clear.of_leads (h : d.Clear c cfg outer) (hv : Leads c cfg d v) : v.Clear c cfg outer :=
  fun t ht => h t (.head hv ht)

theorem Clear.holds (h : d.Clear c cfg outer) : outer.holds d.pathKey = false := by
  refine List.any_eq_false.mpr fun o ho heq => ?_
  exact (h d .refl o ho).1 (of_decide_eq_true heq)

theorem Clear.expansions (h : d.Clear c cfg outer) : outer.expansions d.name = 0 := by
  refine List.countP_eq_zero.mpr fun o ho heq => ?_
  exact (h d .refl o ho).2 (of_decide_eq_true heq)

/-- Types that are open further out change nothing. -/
theorem Clear.expand_append (path : Path) (hd : d.From c) (h : d.Clear c cfg outer) :
    d.expand c cfg (path ++ outer) hd = d.expand c cfg path hd := by
  have hall : ∀ (hd : d.From c), d.Clear c cfg outer →
      d.expand c cfg path hd = d.expand c cfg (path ++ outer) hd := by
    -- Both walks open the same types, so what is open further out stays so.
    refine walkInduction cfg (fun path d _ arguments members hd h => ?_) path d hd
    have hcount := Path.expansions_append path outer d.name
    rw [h.expansions, Nat.add_zero] at hcount
    refine (expand_upTo (F := fun _ => False) hd ?_ rfl ?_ ?_ ?_).eq
    · rw [Path.holds_append, h.holds, Bool.or_false]
    · intro kind a ha hfrom
      exact arguments a ha hfrom (h.of_leads (.argument kind ha)) ▸ .same _
    · intro room
      refine ⟨hcount ▸ room, fun mode ms kind m hm v hv hfrom => ?_⟩
      exact members room m v hv hfrom (h.of_leads (.member kind hm hv)) ▸ .same _
    · exact fun full => .inr ⟨hcount ▸ full, rfl⟩
  exact (hall hd h).symm

theorem Clear.expand_eq (hd : d.From c) (h : d.Clear c cfg path) :
    d.expand c cfg path hd = d.expand c cfg [] hd :=
  h.expand_append [] hd

theorem Expanded.render_eq {e : Expansion} (h : Expanded c cfg path d e)
    (free : path.holds d.pathKey = false) (hkind : d.category cfg ≠ .leaf) :
    e.render = d.fullName ++ "(" ++ e.body ++ ")" := by
  cases h with
  | held held =>
    rw [held] at free
    cases free
  | leaf _ kind => exact absurd kind hkind
  | collection => rw [Expansion.render, Expansion.body]
  | composite => rw [Expansion.render, Expansion.body]

/-- With nothing open, a type is written as its fingerprint in parentheses after its name. -/
theorem occurrence_nil (hd : d.From c) (hkind : d.category cfg ≠ .leaf) :
    d.occurrence c cfg [] hd =
      (d.shape c cfg hd).map fun body => d.fullName ++ "(" ++ body ++ ")" := by
  rw [occurrence, shape]
  cases h : d.expand c cfg [] hd with
  | error err => rfl
  | ok e => exact congrArg Except.ok (((expand_eq_ok_iff hd).mp h).render_eq rfl hkind)

theorem occurrence_of_leaf (hd : d.From c) (hkind : d.category cfg = .leaf) :
    d.occurrence c cfg path hd = .ok d.fullName := by
  rw [occurrence, expand, hkind]
  cases path.holds d.pathKey <;> rfl

/-- The members of a type without arguments whose members lead to no type of its key or
definition: each is written as its value type is on its own. -/
theorem memberFingerprint_of_memberExpands {m : Member} {x : String × Expansion}
    (hargs : d.arguments = []) (hm : MemberExpands c cfg path d m x)
    (hclear : ∀ v, d.memberType c m = .ok v → v.Clear c cfg path) :
    c.memberFingerprint cfg m.valueType = .ok x.2.render := by
  obtain ⟨-, v, hv, hfrom, hexpand⟩ := hm
  rw [(hclear v hv).expand_eq hfrom] at hexpand
  rw [memberType, hargs] at hv
  have hresolve := TypeRef.resolve_of_place Catalog.entryPoint hv
  exact map_eq_ok_iff.mpr ⟨x.2, Catalog.expansion_eq_ok_iff.mpr ⟨v, hresolve, hfrom, hexpand⟩, rfl⟩

end Descriptor

namespace Catalog

variable {c : Catalog} {cfg : Config}

theorem fingerprint_of_resolve {r : TypeRef} {d : Descriptor}
    (h : r.resolve c [] entryPoint = .ok d) (hd : d.From c) :
    c.fingerprint cfg r = d.shape c cfg hd := by
  rw [fingerprint, expansion_of_ok h]
  rfl

theorem memberFingerprint_of_resolve {r : TypeRef} {d : Descriptor}
    (h : r.resolve c [] entryPoint = .ok d) (hd : d.From c) :
    c.memberFingerprint cfg r = d.occurrence c cfg [] hd := by
  rw [memberFingerprint, expansion_of_ok h]
  rfl

theorem segments_of_forall₂ {path : Path} {d : Descriptor} {ms : List Member}
    {xs : List (String × Expansion)} (hargs : d.arguments = [])
    (h : List.Forall₂ (Descriptor.MemberExpands c cfg path d) ms xs)
    (hclear : ∀ m ∈ ms, ∀ v, d.memberType c m = .ok v → v.Clear c cfg path) :
    List.Forall₂ (fun m segment => ∃ text, c.memberFingerprint cfg m.valueType = .ok text ∧
      segment = text ++ "-" ++ m.name) ms (Expansion.segments xs) := by
  rw [Expansion.segments_eq_map, List.forall₂_map_right_iff]
  refine ((List.forall₂_and_left _ _).mpr ⟨hclear, h⟩).imp fun m x ⟨hm, hx⟩ => ?_
  exact ⟨x.2.render, Descriptor.memberFingerprint_of_memberExpands hargs hx hm, by rw [hx.1]⟩

/-- How the text of a type is made of the texts of others. -/
structure Compositional (c : Catalog) (cfg : Config) : Prop where
  /-- What is open does not matter to a type that cannot lead back to it. -/
  apart : ∀ (d : Descriptor) (hd : d.From c) (path : Path), d.Clear c cfg path →
    d.occurrence c cfg path hd = d.occurrence c cfg [] hd
  leaf : ∀ (d : Descriptor) (hd : d.From c) (path : Path),
    d.category cfg = .leaf → d.occurrence c cfg path hd = .ok d.fullName
  /-- A fault of the fingerprint is the fault of the occurrence. -/
  wrapped : ∀ (d : Descriptor) (hd : d.From c) (path : Path), d.Clear c cfg path →
    d.category cfg ≠ .leaf → d.occurrence c cfg path hd =
      (d.shape c cfg hd).map fun body => d.fullName ++ "(" ++ body ++ ")"
  /-- The two texts of a reference that stands in no type. -/
  reference : ∀ (r : TypeRef) (d : Descriptor) (hd : d.From c),
    r.resolve c [] entryPoint = .ok d →
      c.fingerprint cfg r = d.shape c cfg hd ∧ c.memberFingerprint cfg r = d.occurrence c cfg [] hd
  /-- A type without arguments to which none of its members leads back. -/
  members : ∀ (name : String) (d : Descriptor) (mode : SelectionMode) (s : String),
    (TypeRef.named name []).resolve c [] entryPoint = .ok d →
      d.category cfg = .composite mode (d.definition.selected cfg) →
      (∀ m ∈ d.definition.selected cfg, ∀ v, d.memberType c m = .ok v →
        v.Clear c cfg [⟨d.name, d.pathKey⟩]) →
      c.fingerprintOf cfg name = .ok s →
        ∃ segments, List.Forall₂ (fun m segment => ∃ text,
          c.memberFingerprint cfg m.valueType = .ok text ∧ segment = text ++ "-" ++ m.name)
            (d.definition.selected cfg) segments ∧ s = Expansion.joinSorted segments

theorem compositional (c : Catalog) (cfg : Config) : c.Compositional cfg where
  apart d hd path hclear := by
    rw [Descriptor.occurrence, Descriptor.occurrence, hclear.expand_eq hd]
  leaf d hd path hkind := Descriptor.occurrence_of_leaf hd hkind
  wrapped d hd path hclear hkind := by
    rw [Descriptor.occurrence, hclear.expand_eq hd]
    exact Descriptor.occurrence_nil hd hkind
  reference r d hd h := ⟨fingerprint_of_resolve h hd, memberFingerprint_of_resolve h hd⟩
  members name d mode s hd hkind hclear hs := by
    obtain ⟨d', e, hd', hexpands, -, hargs, hbody⟩ := exists_expands_of_fingerprintOf hs
    cases hd.symm.trans hd'
    obtain ⟨-, step⟩ := Descriptor.expands_iff.mp hexpands
    cases step with
    | held held => cases held
    | leaf _ kind =>
      rw [hkind] at kind
      cases kind
    | collection _ kind =>
      rw [hkind] at kind
      cases kind
    | composite _ kind _ members =>
      rw [hkind] at kind
      cases kind
      exact ⟨_, segments_of_forall₂ hargs members hclear, hbody.symm⟩

/-- A cell that holds the next one. -/
def linkedCell : Definition :=
  { name := "Cell", members := [⟨"Next", .named "Cell" [], false, true, true⟩] }

/-- Two cells side by side. -/
def cellPair : Definition :=
  { name := "Pair", members :=
      [⟨"Second", .named "Cell" [], false, true, true⟩,
        ⟨"First", .named "Cell" [], false, true, true⟩] }

def cellPairs : Catalog :=
  ⟨[linkedCell, cellPair], List.pairwise_map.mp (show ["Cell", "Pair"].Pairwise (· < ·) by decide)⟩

theorem fingerprintOf_cellPairs :
    cellPairs.fingerprintOf {} "Pair" = .ok "Cell(Cell-Next)-First|Cell(Cell-Next)-Second" := by
  let cell : Descriptor := ⟨linkedCell, []⟩
  let pair : Descriptor := ⟨cellPair, []⟩
  have hcell : cell.From cellPairs := .intro rfl (by simp [cell])
  have hpair : pair.From cellPairs := .intro rfl (by simp [pair])
  have hself : cell.Expands cellPairs {} (.opened [cell, pair]) (.bare "Cell") :=
    hcell.expands_of_mem rfl List.mem_cons_self
  have hopen : cell.Expands cellPairs {} (.opened [pair]) (.composite "Cell"
      [("Next", .bare "Cell")]) :=
    hcell.expands_of_members rfl rfl rfl (by decide) (.cons ⟨rfl, _, rfl, hself⟩ .nil)
  have hexpands : pair.Expands cellPairs {} (.opened []) (.composite "Pair"
      [("Second", .composite "Cell" [("Next", .bare "Cell")]),
        ("First", .composite "Cell" [("Next", .bare "Cell")])]) :=
    hpair.expands_of_members rfl rfl rfl (by decide)
      (.cons ⟨rfl, _, rfl, hopen⟩ (.cons ⟨rfl, _, rfl, hopen⟩ .nil))
  refine map_eq_ok_iff.mpr ⟨_, expansion_eq_ok_iff.mpr ⟨pair, rfl, hexpands⟩, ?_⟩
  simp [Expansion.body, Expansion.render, Expansion.segments, Expansion.joinSorted, List.mergeSort]

theorem leadsTo_of_linkedCell {t : Descriptor}
    (h : Descriptor.LeadsTo cellPairs {} ⟨linkedCell, []⟩ t) : t = ⟨linkedCell, []⟩ := by
  have hcell : Descriptor.category ⟨linkedCell, []⟩ {} =
      .composite .implicit linkedCell.members := by decide
  induction h with
  | refl => rfl
  | @tail t u _ hlead ih =>
    subst ih
    cases hlead with
    | argument kind mem => cases mem
    | @member mode ms kind m mem v value =>
      rw [hcell] at kind
      cases kind
      obtain rfl := List.mem_singleton.mp mem
      cases value
      rfl

theorem members_of_cellPair :
    cellPairs.fingerprintOf {} "Pair" = .ok "Cell(Cell-Next)-First|Cell(Cell-Next)-Second" ∧
      (∀ m ∈ cellPair.members, ∀ v, Descriptor.memberType cellPairs ⟨cellPair, []⟩ m = .ok v →
        v.Clear cellPairs {} [⟨"Pair", "Pair"⟩]) ∧
      ∃ segments, List.Forall₂ (fun m segment => ∃ text,
        cellPairs.memberFingerprint {} m.valueType = .ok text ∧ segment = text ++ "-" ++ m.name)
          cellPair.members segments ∧
        "Cell(Cell-Next)-First|Cell(Cell-Next)-Second" = Expansion.joinSorted segments := by
  have hclear : ∀ m ∈ cellPair.members, ∀ v,
      Descriptor.memberType cellPairs ⟨cellPair, []⟩ m = .ok v →
        v.Clear cellPairs {} [⟨"Pair", "Pair"⟩] := by
    intro m hm v hv t ht o ho
    have hvalue : Descriptor.memberType cellPairs ⟨cellPair, []⟩ m = .ok ⟨linkedCell, []⟩ := by
      rcases List.mem_pair.mp hm with rfl | rfl <;> rfl
    cases hv.symm.trans hvalue
    obtain rfl := leadsTo_of_linkedCell ht
    obtain rfl := List.mem_singleton.mp ho
    decide
  refine ⟨fingerprintOf_cellPairs, hclear, ?_⟩
  exact (compositional cellPairs {}).members "Pair" ⟨cellPair, []⟩ .implicit _ rfl (by decide)
    hclear fingerprintOf_cellPairs

end Catalog

end ShapeLedger
