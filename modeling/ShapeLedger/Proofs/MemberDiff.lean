import ShapeLedger.Proofs.Changes
import ShapeLedger.Proofs.Cutting
import ShapeLedger.Proofs.Readability

/-!
The members in a fingerprint are those of the walk. If no name holds a
parenthesis or a bar, the text of a tree is closed, so the members of a type are
found again in its fingerprint, each with the text of its value type as the walk
finds it below the type. Two fingerprints of a type then differ by the changes
between these members.
-/

namespace ShapeLedger

open Text Shape

/-- No member of the catalog has one of `chars` in its name. -/
def Catalog.MemberNamesAvoid (c : Catalog) (chars : List Char) : Prop :=
  ∀ d ∈ c.items, ∀ m ∈ d.members, Avoids chars m.name

instance (c : Catalog) (chars : List Char) : Decidable (c.MemberNamesAvoid chars) :=
  inferInstanceAs (Decidable (∀ d ∈ c.items, ∀ m ∈ d.members, _))

theorem Catalog.NamesAvoid.members {c : Catalog} {chars : List Char} (h : c.NamesAvoid chars) :
    c.MemberNamesAvoid chars :=
  fun d hd => (h d hd).2

namespace Expansion

theorem chars_eq (e : Expansion) : e.chars = e.name.toList ++ e.rest [] := by
  rw [← chars_append, List.append_nil]

/-- A member of a tree as its segment shows it. -/
def shape (x : String × Expansion) : MemberShape := ⟨x.1, x.2.render⟩

end Expansion

namespace MemberShape

/-- Members in ascending order of their segments. -/
def bySegment (ms : List MemberShape) : List MemberShape :=
  ms.mergeSort fun m m' => decide (m.segment ≤ m'.segment)

theorem bySegment_perm (ms : List MemberShape) : (bySegment ms).Perm ms :=
  List.mergeSort_perm ms _

theorem joinSorted_segments (ms : List MemberShape) :
    Expansion.joinSorted (ms.map segment) = "|".intercalate ((bySegment ms).map segment) := by
  rw [Expansion.joinSorted, bySegment, List.map_mergeSort (s := fun a b => decide (a ≤ b))]
  exact fun _ _ _ _ => rfl

end MemberShape

namespace Descriptor

variable {c : Catalog} {cfg : Config} {path : Path} {d : Descriptor}

/-! ### The text of a tree is closed -/

theorem closed_fullName (hc : c.NamesAvoid marks) (hd : d.From c) (depth : Nat) :
    Closed depth d.fullName.toList :=
  closed_of_avoids (hd.fullName_avoids hc.types (by decide) rfl) depth

theorem closed_segment {x : String × Expansion} {depth : Nat} (htree : Closed depth x.2.chars)
    (hname : Avoids marks x.1) : Closed depth (Expansion.segment x).toList := by
  have hdash : Closed depth ['-'] := closed_of_not_mem_marks depth (by simp [marks])
  have hsegment := Expansion.segment_append x []
  rw [List.append_nil, List.append_nil] at hsegment
  rw [hsegment]
  exact htree.append (hdash.append (closed_of_avoids hname depth))

theorem name_avoids_of_category {chars : List Char} (hc : c.MemberNamesAvoid chars)
    (hd : d.From c) {mode : SelectionMode} {ms : List Member}
    (h : d.category cfg = .composite mode ms) {m : Member} (hm : m ∈ ms) : Avoids chars m.name :=
  hc d.definition hd.definition_mem m (mem_members_of_category h hm)

/-- Whatever depth it stands at, the text of a tree of the walk is not cut. -/
theorem closed_of_expands (hc : c.NamesAvoid marks) {e : Expansion} (h : d.Expands c cfg path e)
    (depth : Nat) : Closed depth e.chars := by
  induction e generalizing path d depth with
  | bare n =>
    have hname : n = d.fullName := h.name_eq
    rw [Expansion.chars_eq, hname]
    exact (closed_fullName hc h.from depth).append (closed_nil depth)
  | collection n es ih =>
    have hname : n = d.fullName := h.name_eq
    rw [Expansion.chars_eq, hname]
    refine (closed_fullName hc h.from depth).append (closed_intercalate fun s hs => ?_).parentheses
    obtain ⟨e, he, rfl⟩ := List.mem_map.mp hs
    obtain ⟨a, -, ha⟩ := exists_mem_of_forall₂ h.arguments.2 he
    exact ih e he ha (depth + 1)
  | composite n xs ih =>
    have hname : n = d.fullName := h.name_eq
    obtain ⟨mode, ms, kind, members⟩ := h.members
    obtain ⟨xs', hperm, hrest⟩ := Expansion.rest_composite n xs
    rw [Expansion.chars_eq, hrest, hname]
    refine (closed_fullName hc h.from depth).append (closed_intercalate fun s hs => ?_).parentheses
    obtain ⟨x, hx, rfl⟩ := List.mem_map.mp hs
    have hmem : x ∈ xs := hperm.mem_iff.mpr hx
    obtain ⟨m, hm, hmx, v, -, hv⟩ := exists_mem_of_forall₂ members hmem
    have hmember : Avoids marks x.1 := hmx ▸ name_avoids_of_category hc.members h.from kind hm
    exact closed_segment (ih x hmem hv (depth + 1)) hmember

/-! ### The members of a type in its fingerprint -/

/-- The members of the shape of `d`; a leaf and a collection show none. -/
def shown (d : Descriptor) (cfg : Config) : List Member :=
  match d.category cfg with
  | .composite _ ms => ms
  | _ => []

/-- What the walk finds as the member `m` of `d`, where nothing but `d` is open. -/
def Shows (c : Catalog) (cfg : Config) (d : Descriptor) (m : Member) (s : MemberShape) : Prop :=
  ∃ e, MemberExpands c cfg (.opened [d]) d m (s.name, e) ∧ s.typeText = e.render

theorem forall₂_shows {ms : List Member} {xs : List (String × Expansion)}
    (h : List.Forall₂ (MemberExpands c cfg (.opened [d]) d) ms xs) :
    List.Forall₂ (d.Shows c cfg) ms (xs.map Expansion.shape) :=
  List.forall₂_map_right_iff.mpr (h.imp fun _ x hx => ⟨x.2, hx, rfl⟩)

theorem names_of_forall₂_shows {ms : List Member} {ss : List MemberShape}
    (h : List.Forall₂ (d.Shows c cfg) ms ss) : ss.map MemberShape.name = ms.map Member.name := by
  rw [← List.forall₂_eq_eq_eq, List.forall₂_map_left_iff, List.forall₂_map_right_iff]
  exact h.flip.imp fun _ _ ⟨_, hx, _⟩ => hx.1.symm

/-- A type without arguments shows its members in the text of its tree. -/
theorem members_of_expands (hc : c.NamesAvoid marks) (hdash : c.MemberNamesAvoid ['-'])
    {e : Expansion} (hargs : d.arguments = []) (h : d.Expands c cfg [] e) :
    ∃ ss, List.Forall₂ (d.Shows c cfg) (d.shown cfg) ss ∧
      e.body = Expansion.joinSorted (ss.map MemberShape.segment) ∧
      members e.body = MemberShape.bySegment ss := by
  rcases h.bare_or_composite hargs with rfl | ⟨xs, -, rfl⟩
  · have kind : d.category cfg = .leaf := by
      rcases h.held_or_leaf with held | kind
      · cases held
      · exact kind
    have hempty : Expansion.joinSorted (([] : List MemberShape).map MemberShape.segment) = "" := by
      simp [Expansion.joinSorted]
    refine ⟨[], ?_, hempty.symm, ?_⟩
    · rw [shown, kind]
      exact .nil
    · simp [Expansion.body, members, segments, MemberShape.bySegment]
  · obtain ⟨mode, ms, kind, hmembers⟩ := h.members
    have hopened : List.Forall₂ (MemberExpands c cfg (.opened [d]) d) ms xs := hmembers
    have hbody : (Expansion.composite d.fullName xs).body =
        Expansion.joinSorted ((xs.map Expansion.shape).map MemberShape.segment) := by
      rw [Expansion.body, Expansion.segments_eq_map, List.map_map]
      rfl
    refine ⟨xs.map Expansion.shape, ?_, hbody, ?_⟩
    · rw [shown, kind]
      exact forall₂_shows hopened
    · rw [hbody, MemberShape.joinSorted_segments]
      -- A member of the text is one of the tree, whose names and subtrees are closed.
      have hshape (s : MemberShape) (hs : s ∈ MemberShape.bySegment (xs.map Expansion.shape)) :
          Closed 0 s.segment.toList ∧ Avoids ['-'] s.name := by
        obtain ⟨⟨name, tree⟩, hx, rfl⟩ :=
          List.mem_map.mp ((MemberShape.bySegment_perm _).mem_iff.mp hs)
        obtain ⟨m, hm, hname, v, -, hv⟩ := exists_mem_of_forall₂ hopened hx
        obtain rfl : m.name = name := hname
        have htree : Closed 0 tree.chars := closed_of_expands hc hv 0
        exact ⟨closed_segment htree (name_avoids_of_category hc.members h.from kind hm),
          name_avoids_of_category hdash h.from kind hm⟩
      exact members_intercalate (fun s hs => (hshape s hs).1) fun s hs => (hshape s hs).2

end Descriptor

namespace Catalog

/-- The members of the shape of the type `name`. -/
def shownMembers (c : Catalog) (cfg : Config) (name : String) : List Member :=
  match c.find? name with
  | some definition => Descriptor.shown ⟨definition, []⟩ cfg
  | none => []

/-- The walk finds the members `ss` in the type `name`, in declared order. -/
def ShowsMembers (c : Catalog) (cfg : Config) (name : String) (ss : List MemberShape) : Prop :=
  ∃ d, (TypeRef.named name []).resolve c [] entryPoint = .ok d ∧
    List.Forall₂ (d.Shows c cfg) (c.shownMembers cfg name) ss

variable {c c' : Catalog} {cfg cfg' : Config} {name h h' : String} {ss ss' : List MemberShape}

theorem shownMembers_of_resolve {d : Descriptor}
    (hd : (TypeRef.named name []).resolve c [] entryPoint = .ok d) :
    c.shownMembers cfg name = d.shown cfg := by
  rw [TypeRef.resolve] at hd
  rw [shownMembers]
  split at hd
  · cases hd
  · rename_i definition hfind
    rw [hfind]
    split at hd <;> cases hd
    rfl

theorem ShowsMembers.names (hss : c.ShowsMembers cfg name ss) :
    ss.map MemberShape.name = (c.shownMembers cfg name).map Member.name := by
  obtain ⟨d, -, hshows⟩ := hss
  exact Descriptor.names_of_forall₂_shows hshows

/-- A fingerprint lists what the walk finds, and is read back member by member. -/
theorem members_of_fingerprintOf (hc : c.NamesAvoid marks) (hdash : c.MemberNamesAvoid ['-'])
    (hh : c.fingerprintOf cfg name = .ok h) :
    ∃ ss, c.ShowsMembers cfg name ss ∧
      h = Expansion.joinSorted (ss.map MemberShape.segment) ∧
      members h = MemberShape.bySegment ss := by
  obtain ⟨d, e, hd, hexpands, -, hargs, rfl⟩ := exists_expands_of_fingerprintOf hh
  obtain ⟨ss, hshows, hbody, hmembers⟩ := Descriptor.members_of_expands hc hdash hargs hexpands
  exact ⟨ss, ⟨d, hd, shownMembers_of_resolve hd ▸ hshows⟩, hbody, hmembers⟩

/-! ### Changes between fingerprints -/

theorem diff_eq_changes (hss : (ss.map MemberShape.name).Nodup)
    (hss' : (ss'.map MemberShape.name).Nodup) (hh : members h = MemberShape.bySegment ss)
    (hh' : members h' = MemberShape.bySegment ss') :
    diff h h' = changes (NameTable.ofList MemberShape.name ss)
      (NameTable.ofList MemberShape.name ss') := by
  have hperm := (MemberShape.bySegment_perm ss).symm
  have hperm' := (MemberShape.bySegment_perm ss').symm
  rw [diff, memberTable, memberTable, hh, hh', NameTable.ofList_eq_of_perm hss hperm,
    NameTable.ofList_eq_of_perm hss' hperm']

/-- Where no name is repeated, members that make the same table make the same text. -/
theorem changes_eq_nil_iff_of_nodup (hss : (ss.map MemberShape.name).Nodup)
    (hss' : (ss'.map MemberShape.name).Nodup)
    (hh : h = Expansion.joinSorted (ss.map MemberShape.segment))
    (hh' : h' = Expansion.joinSorted (ss'.map MemberShape.segment))
    (hdiff : diff h h' = changes (NameTable.ofList MemberShape.name ss)
      (NameTable.ofList MemberShape.name ss')) : diff h h' = [] ↔ h = h' := by
  constructor
  · intro hnil
    rw [hdiff, changes_eq_nil_iff] at hnil
    rw [hh, hh']
    exact Expansion.joinSorted_eq_of_perm ((NameTable.perm_of_ofList_eq hss hss' hnil).map _)
  · rintro rfl
    exact changes_eq_nil_iff.mpr rfl

/-- The difference of two fingerprints of a type, end to end: the members of each are read back
as the walk finds them, the changes are those between these members, in ascending order of the
names, and there is none only if the fingerprints are the same. -/
theorem diff_fingerprintOf (hc : c.NamesAvoid marks) (hdash : c.MemberNamesAvoid ['-'])
    (hc' : c'.NamesAvoid marks) (hdash' : c'.MemberNamesAvoid ['-'])
    (hh : c.fingerprintOf cfg name = .ok h) (hh' : c'.fingerprintOf cfg' name = .ok h')
    (hnodup : ((c.shownMembers cfg name).map Member.name).Nodup)
    (hnodup' : ((c'.shownMembers cfg' name).map Member.name).Nodup) :
    ∃ ss ss', c.ShowsMembers cfg name ss ∧ c'.ShowsMembers cfg' name ss' ∧
      members h = MemberShape.bySegment ss ∧ members h' = MemberShape.bySegment ss' ∧
      (∀ change, change ∈ diff h h' ↔
        (∃ s ∈ ss, (∀ s' ∈ ss', s'.name ≠ s.name) ∧ change = .removed s.name s.typeText) ∨
        (∃ s' ∈ ss', (∀ s ∈ ss, s.name ≠ s'.name) ∧ change = .added s'.name s'.typeText) ∨
        ∃ s ∈ ss, ∃ s' ∈ ss', s.name = s'.name ∧ s.typeText ≠ s'.typeText ∧
          change = .retyped s.name s.typeText s'.typeText) ∧
      ((diff h h').Pairwise fun change change' => change.name < change'.name) ∧
      (diff h h' = [] ↔ h = h') := by
  obtain ⟨ss, hss, htext, hmembers⟩ := members_of_fingerprintOf hc hdash hh
  obtain ⟨ss', hss', htext', hmembers'⟩ := members_of_fingerprintOf hc' hdash' hh'
  have hnames : (ss.map MemberShape.name).Nodup := hss.names ▸ hnodup
  have hnames' : (ss'.map MemberShape.name).Nodup := hss'.names ▸ hnodup'
  have hdiff := diff_eq_changes hnames hnames' hmembers hmembers'
  refine ⟨ss, ss', hss, hss', hmembers, hmembers', fun change => ?_, ?_, ?_⟩
  · rw [hdiff]
    exact mem_changes_ofList hnames hnames'
  · exact changes_ascending _ _
  · exact changes_eq_nil_iff_of_nodup hnames hnames' htext htext' hdiff

/-- A node that is only followed by a node. -/
theorem expansion_chained_nodes : (nodes nodeMembers.tail).expansion {} (.named "Node" []) =
    .ok (.composite "Node" [("Next", .bare "Node")]) := by
  let node : Descriptor := ⟨{ name := "Node", members := nodeMembers.tail }, []⟩
  have hnode : node.From (nodes nodeMembers.tail) := .intro rfl (by simp [node])
  have hself : node.Expands (nodes nodeMembers.tail) {} (.opened [node]) (.bare "Node") :=
    hnode.expands_of_mem rfl List.mem_cons_self
  have hexpands : node.Expands (nodes nodeMembers.tail) {} (.opened [])
      (.composite "Node" [("Next", .bare "Node")]) :=
    hnode.expands_of_members rfl rfl rfl (by decide) (.cons ⟨rfl, _, rfl, hself⟩ .nil)
  exact expansion_eq_ok_iff.mpr ⟨node, rfl, hexpands⟩

theorem fingerprintOf_nodes :
    (nodes nodeMembers).fingerprintOf {} "Node" = .ok "List`1(Node)-Items|Node-Next" :=
  map_eq_ok_iff.mpr ⟨_, expansion_nodes, by simp [Expansion.body, Expansion.render,
    Expansion.renderAll, Expansion.segments, Expansion.joinSorted, List.mergeSort]⟩

theorem fingerprintOf_chained_nodes :
    (nodes nodeMembers.tail).fingerprintOf {} "Node" = .ok "Node-Next" :=
  map_eq_ok_iff.mpr ⟨_, expansion_chained_nodes, by simp [Expansion.body, Expansion.render,
    Expansion.segments, Expansion.joinSorted]⟩

theorem diff_nodes_chained_nodes :
    (nodes nodeMembers).fingerprintOf {} "Node" = .ok "List`1(Node)-Items|Node-Next" ∧
      (nodes nodeMembers.tail).fingerprintOf {} "Node" = .ok "Node-Next" ∧
      ∃ ss ss', (nodes nodeMembers).ShowsMembers {} "Node" ss ∧
        (nodes nodeMembers.tail).ShowsMembers {} "Node" ss' ∧
        members "List`1(Node)-Items|Node-Next" = MemberShape.bySegment ss ∧
        members "Node-Next" = MemberShape.bySegment ss' ∧
        diff "List`1(Node)-Items|Node-Next" "Node-Next" ≠ [] := by
  have h := fingerprintOf_nodes
  have h' := fingerprintOf_chained_nodes
  obtain ⟨ss, ss', hss, hss', hmembers, hmembers', -, -, hsame⟩ :=
    diff_fingerprintOf (by decide) (by decide) (by decide) (by decide) h h' (by decide) (by decide)
  exact ⟨h, h', ss, ss', hss, hss', hmembers, hmembers',
    fun hnil => absurd (hsame.mp hnil) (by decide)⟩

end Catalog

end ShapeLedger
