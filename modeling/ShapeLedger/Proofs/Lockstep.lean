import ShapeLedger.Proofs.Readability
import ShapeLedger.Proofs.Unfolding

/-!
Two walks in lockstep. A type that is open already is only named, and its full
name says nothing about its arguments. If no bare name of a tree stands below
two composites of that name, each back-reference goes to the one composite
above it that bears the name. Two walks that find alike trees then open the
same types together, and whatever stands at one place in both unfolds alike to
every depth.
-/

namespace ShapeLedger

namespace Expansion

/-- Below composites of the names `around`, no bare name of the tree stands
below two composites of that name. -/
inductive Pinned : List String → Expansion → Prop
  | bare {around : List String} {n : String} (once : around.count n ≤ 1) : Pinned around (.bare n)
  | collection {around : List String} {n : String} {es : List Expansion}
    (arguments : ∀ e ∈ es, Pinned around e) : Pinned around (.collection n es)
  | composite {around : List String} {n : String} {ms : List (String × Expansion)}
    (members : ∀ m ∈ ms, Pinned (n :: around) m.2) : Pinned around (.composite n ms)

end Expansion

namespace Descriptor

variable {c c' : Catalog} {cfg : Config} {path : Path} {d d' : Descriptor}

theorem category_eq_of_fullName_eq (hc : c.NamesAvoid ['\x60']) (hd : d.From c) (hd' : d'.From c)
    (h : d.fullName = d'.fullName) (cfg : Config) : d.category cfg = d'.category cfg := by
  obtain ⟨hname, hnil⟩ := hd.eq_of_fullName_eq hc hc hd' h
  have hempty : d.arguments.isEmpty = d'.arguments.isEmpty := by
    rw [Bool.eq_iff_iff, List.isEmpty_iff, List.isEmpty_iff]
    exact hnil
  rw [category, category, hd.definition_eq hd' hname, hempty]

def Openable (c : Catalog) (cfg : Config) (d : Descriptor) : Prop :=
  d.From c ∧ ∃ mode ms, d.category cfg = .composite mode ms

theorem Expands.openable {n : String} {xs : List (String × Expansion)}
    (h : d.Expands c cfg path (.composite n xs)) : d.Openable c cfg := by
  obtain ⟨mode, ms, kind, -⟩ := h.members
  exact ⟨h.from, mode, ms, kind⟩

/-- A type that bears the name of an open composite is a composite itself. -/
theorem category_ne_leaf (hc : c.NamesAvoid ['\x60']) {ds : List Descriptor}
    (hds : ∀ o ∈ ds, o.Openable c cfg) (hd : d.From c) (hmem : d.fullName ∈ ds.map fullName) :
    d.category cfg ≠ .leaf := by
  obtain ⟨o, ho, hname⟩ := List.mem_map.mp hmem
  obtain ⟨hfrom, mode, ms, kind⟩ := hds o ho
  rw [← category_eq_of_fullName_eq hc hfrom hd hname cfg, kind]
  simp

end Descriptor

/-! ### Two walks side by side -/

open Descriptor

/-- Types of two catalogs, found by walks that have `ds` and `ds'` open. -/
structure Paired (c c' : Catalog) (cfg : Config) (ds ds' : List Descriptor) (d d' : Descriptor)
    (e e' : Expansion) : Prop where
  left : d.Expands c cfg (.opened ds) e
  right : d'.Expands c' cfg (.opened ds') e'
  alike : e.Alike e'
  pinned : e.Pinned (ds.map fullName)

/-- What is open in two walks that went through alike trees. -/
inductive Lockstep (c c' : Catalog) (cfg : Config) :
    List Descriptor → List Descriptor → Prop
  | nil : Lockstep c c' cfg [] []
  | cons {ds ds' : List Descriptor} {d d' : Descriptor} {n : String}
    {xs : List (String × Expansion)} {e' : Expansion} (below : Lockstep c c' cfg ds ds')
    (opened : Paired c c' cfg ds ds' d d' (.composite n xs) e') :
    Lockstep c c' cfg (d :: ds) (d' :: ds')

def SameUnfolding (c c' : Catalog) (cfg : Config) (k : Nat) (d d' : Descriptor) : Prop :=
  ∃ t t', d.unfold c cfg k = .ok t ∧ d'.unfold c' cfg k = .ok t' ∧ t.Alike t'

section

variable {c c' : Catalog} {cfg : Config} {ds ds' : List Descriptor} {d d' : Descriptor}
  {e e' : Expansion}

theorem Paired.fullName_eq (h : Paired c c' cfg ds ds' d d' e e') : d.fullName = d'.fullName := by
  rw [← h.left.name_eq, ← h.right.name_eq, h.alike.name_eq]

theorem Lockstep.fullNames_eq (h : Lockstep c c' cfg ds ds') :
    ds.map fullName = ds'.map fullName := by
  induction h with
  | nil => rfl
  | cons _ opened ih => rw [List.map_cons, List.map_cons, opened.fullName_eq, ih]

theorem Lockstep.left (h : Lockstep c c' cfg ds ds') : ∀ o ∈ ds, o.Openable c cfg := by
  induction h with
  | nil => simp
  | cons _ opened ih => exact List.forall_mem_cons.mpr ⟨opened.left.openable, ih⟩

theorem Lockstep.right (h : Lockstep c c' cfg ds ds') : ∀ o ∈ ds', o.Openable c' cfg := by
  induction h with
  | nil => simp
  | cons _ opened ih =>
    obtain ⟨_, _, rfl, -, -⟩ := opened.alike.members
    exact List.forall_mem_cons.mpr ⟨opened.right.openable, ih⟩

/-- If only one open type has the name of `d` and `d'`, and both are open, they
were opened together. -/
theorem Lockstep.find (h : Lockstep c c' cfg ds ds') (hd : d ∈ ds) (hd' : d' ∈ ds')
    (hname : d.fullName = d'.fullName) (honce : (ds.map fullName).count d.fullName ≤ 1) :
    ∃ ts ts' n xs e', Lockstep c c' cfg ts ts' ∧
      Paired c c' cfg ts ts' d d' (.composite n xs) e' := by
  induction h with
  | nil => cases hd
  | @cons ds ds' o o' n xs e' below opened ih =>
    rw [List.map_cons, List.count_cons] at honce
    rcases List.mem_cons.mp hd with rfl | hd <;> rcases List.mem_cons.mp hd' with rfl | hd'
    · exact ⟨ds, ds', n, xs, e', below, opened⟩
    · have hmem : d.fullName ∈ ds.map fullName := by
        rw [below.fullNames_eq, hname]
        exact List.mem_map_of_mem hd'
      have hpos := List.count_pos_iff.mpr hmem
      simp only [beq_self_eq_true, if_true] at honce
      omega
    · have hpos := List.count_pos_iff.mpr (List.mem_map_of_mem (f := fullName) hd)
      simp only [opened.fullName_eq, hname, beq_self_eq_true, if_true] at honce hpos
      omega
    · exact ih hd hd' (by omega)

end

/-! ### Unfolding in lockstep -/

/-- Types that were opened together unfold alike to depth `k`. -/
def OpenedAlike (c c' : Catalog) (cfg : Config) (k : Nat) : Prop :=
  ∀ {ds ds' : List Descriptor} {d d' : Descriptor} {n : String}
    {xs : List (String × Expansion)} {e' : Expansion}, Lockstep c c' cfg ds ds' →
      Paired c c' cfg ds ds' d d' (.composite n xs) e' → SameUnfolding c c' cfg k d d'

/-- Types that stand at the same place unfold alike to depth `k`. -/
def PairedAlike (c c' : Catalog) (cfg : Config) (k : Nat) : Prop :=
  ∀ {ds ds' : List Descriptor} {d d' : Descriptor} {e e' : Expansion},
    Lockstep c c' cfg ds ds' → Paired c c' cfg ds ds' d d' e e' → SameUnfolding c c' cfg k d d'

section

variable {c c' : Catalog} {cfg : Config} {k : Nat}

theorem openedAlike_zero : OpenedAlike c c' cfg 0 := by
  intro ds ds' d d' n xs e' _ h
  obtain ⟨_, _, rfl, -, -⟩ := h.alike.members
  obtain ⟨_, _, kind, -⟩ := h.left.members
  obtain ⟨_, _, kind', -⟩ := h.right.members
  refine ⟨_, _, unfold_zero_of_composite kind, unfold_zero_of_composite kind', ?_⟩
  rw [h.fullName_eq]
  exact .bare _

theorem PairedAlike.member (ih : PairedAlike c c' cfg k) {ds ds' : List Descriptor}
    {d d' : Descriptor} (hlock : Lockstep c c' cfg (d :: ds) (d' :: ds')) {m m' : Member}
    {x y : String × Expansion} (hm : MemberExpands c cfg (.opened (d :: ds)) d m x)
    (hm' : MemberExpands c' cfg (.opened (d' :: ds')) d' m' y) (hxy : Expansion.MemberAlike x y)
    (hpinned : x.2.Pinned ((d :: ds).map fullName)) :
    ∃ u v, MemberUnfolds c cfg k d m u ∧ MemberUnfolds c' cfg k d' m' v ∧
      Expansion.MemberAlike u v := by
  obtain ⟨hname, v, hv, hexpands⟩ := hm
  obtain ⟨hname', v', hv', hexpands'⟩ := hm'
  obtain ⟨t, t', ht, ht', hsame⟩ := ih hlock ⟨hexpands, hexpands', hxy.2, hpinned⟩
  have hnames : m.name = m'.name := hname.trans (hxy.1.trans hname'.symm)
  exact ⟨(m.name, t), (m'.name, t'), ⟨rfl, v, hv, ht⟩, ⟨rfl, v', hv', ht'⟩, hnames, hsame⟩

theorem openedAlike_succ (ih : PairedAlike c c' cfg k) : OpenedAlike c c' cfg (k + 1) := by
  intro ds ds' d d' n xs e' below h
  have hlock : Lockstep c c' cfg (d :: ds) (d' :: ds') := .cons below h
  have hn : n = d.fullName := h.left.name_eq
  obtain ⟨xs', ys, rfl, hperm, halike⟩ := h.alike.members
  obtain ⟨mode, ms, kind, hms⟩ := h.left.members
  obtain ⟨mode', ms', kind', hms'⟩ := h.right.members
  cases h.pinned with
  | composite hpinned =>
    rw [hn] at hpinned
    -- The members of the first type go into the order of the second tree and back.
    obtain ⟨ns, hns, hpermNs⟩ := List.perm_comp_forall₂ hperm.symm hms.flip
    obtain ⟨us, vs, hus, hvs, huv⟩ := forall₂_through hns.flip halike hms'
      fun m x y m' hx hm hxy hm' =>
        ih.member hlock hm hm' hxy (hpinned x (hperm.mem_iff.mpr hx))
    obtain ⟨ws, hws, hpermWs⟩ := List.perm_comp_forall₂ hpermNs.symm hus
    refine ⟨_, _, unfold_succ_of_composite kind hws, unfold_succ_of_composite kind' hvs, ?_⟩
    rw [h.fullName_eq]
    exact .of_members hpermWs huv

section

variable (hc : c.NamesAvoid ['[', ']', ',', '\x60']) (hc' : c'.NamesAvoid ['[', ']', ',', '\x60'])
include hc hc'

/-- A back-reference goes to types that were opened together. -/
theorem sameUnfolding_of_bare (hopened : OpenedAlike c c' cfg k) {ds ds' : List Descriptor}
    {d d' : Descriptor} {n : String} {e' : Expansion} (hlock : Lockstep c c' cfg ds ds')
    (h : Paired c c' cfg ds ds' d d' (.bare n) e') : SameUnfolding c c' cfg k d d' := by
  have hname : d.fullName = d'.fullName := h.fullName_eq
  have hn : n = d.fullName := h.left.name_eq
  have halike : e' = .bare n := by
    cases h.alike
    rfl
  subst halike
  have hmem (held : (Path.opened ds).holds d.pathKey = true) : d ∈ ds :=
    (holds_opened_iff_mem (hc.mono (by decide)).types (fun o ho => (hlock.left o ho).1)
      h.left.from).mp held
  have hmem' (held : (Path.opened ds').holds d'.pathKey = true) : d' ∈ ds' :=
    (holds_opened_iff_mem (hc'.mono (by decide)).types (fun o ho => (hlock.right o ho).1)
      h.right.from).mp held
  rcases h.left.held_or_leaf with held | kind <;> rcases h.right.held_or_leaf with held' | kind'
  · cases h.pinned with
    | bare once =>
      obtain ⟨ts, ts', m, xs, e', below, opened⟩ :=
        hlock.find (hmem held) (hmem' held') hname (hn ▸ once)
      exact hopened below opened
  · have hin : d.fullName ∈ ds'.map fullName :=
      hlock.fullNames_eq ▸ List.mem_map_of_mem (hmem held)
    exact absurd kind' (category_ne_leaf (hc'.mono (by decide)) hlock.right h.right.from
      (hname ▸ hin))
  · have hin : d'.fullName ∈ ds.map fullName :=
      hlock.fullNames_eq ▸ List.mem_map_of_mem (hmem' held')
    exact absurd kind (category_ne_leaf (hc.mono (by decide)) hlock.left h.left.from
      (hname ▸ hin))
  · refine ⟨_, _, unfold_of_leaf kind k, unfold_of_leaf kind' k, ?_⟩
    rw [hname]
    exact .bare _

theorem pairedAlike_of_openedAlike (hopened : OpenedAlike c c' cfg k) :
    PairedAlike c c' cfg k := by
  intro ds ds' d d' e e' hlock h
  induction e generalizing d d' e' with
  | bare n => exact sameUnfolding_of_bare hc hc' hopened hlock h
  | collection n es ih =>
    obtain ⟨left, right, halike, hpinned⟩ := id h
    cases halike with
    | collection _ hall =>
      cases hpinned with
      | collection hpinned =>
        obtain ⟨kind, hargs⟩ := left.arguments
        obtain ⟨kind', hargs'⟩ := right.arguments
        obtain ⟨us, vs, hus, hvs, huv⟩ := forall₂_through hargs hall hargs'
          fun a x y b hx hax hxy hby => ih x hx ⟨hax, hby, hxy, hpinned x hx⟩
        refine ⟨_, _, unfold_of_collection kind hus, unfold_of_collection kind' hvs, ?_⟩
        rw [h.fullName_eq]
        exact .collection _ huv
  | composite n xs => exact hopened hlock h

/-- Below a composite the walks go on in lockstep, and a back-reference leads to
a composite further up, so depth is what the induction is on. -/
theorem pairedAlike (k : Nat) : PairedAlike c c' cfg k := by
  induction k with
  | zero => exact pairedAlike_of_openedAlike hc hc' openedAlike_zero
  | succ k ih => exact pairedAlike_of_openedAlike hc hc' (openedAlike_succ ih)

end

end

end ShapeLedger
