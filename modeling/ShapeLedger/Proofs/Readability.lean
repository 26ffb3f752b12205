import ShapeLedger.Proofs.MemberOrder
import ShapeLedger.Proofs.ReadBack

/-!
Unique readability. If no name holds one of the characters that shape a text,
the text of a tree determines the tree up to the order of members: a name ends
where a mark stands, an opening parenthesis tells an inner tree from a bare
name, and what follows the first tree inside tells a collection from a
composite.
-/

namespace ShapeLedger

open Text

namespace Expansion

/-- What may follow the text of a tree inside another one. -/
def closers : List Char := [')', '|', '-']

/-- A tree whose text can be read back: its names hold no marks, and what has
parentheses has something inside them. -/
inductive Readable : Expansion → Prop
  | bare {n : String} (name : Avoids ('(' :: closers) n) : Readable (.bare n)
  | collection {n : String} {es : List Expansion} (name : Avoids ('(' :: closers) n)
    (nonempty : es ≠ []) (arguments : ∀ e ∈ es, Readable e) : Readable (.collection n es)
  | composite {n : String} {ms : List (String × Expansion)} (name : Avoids ('(' :: closers) n)
    (nonempty : ms ≠ []) (names : ∀ m ∈ ms, Avoids ('(' :: closers) m.1)
    (trees : ∀ m ∈ ms, Readable m.2) : Readable (.composite n ms)

def chars (e : Expansion) : List Char := e.render.toList

/-- What the text of a tree has behind its name, up to and with `t`. -/
def rest : Expansion → List Char → List Char
  | .bare _, t => t
  | .collection _ es, t => '(' :: (['|'].intercalate (es.map chars) ++ ')' :: t)
  | .composite _ ms, t => '(' :: ((joinSorted (segments ms)).toList ++ ')' :: t)

theorem chars_append (e : Expansion) (t : List Char) :
    e.chars ++ t = e.name.toList ++ e.rest t := by
  cases e with
  | bare n => rfl
  | collection n es =>
    have htexts : (es.map render).map String.toList = es.map chars := List.map_map
    simp [chars, render, rest, name, renderAll_eq_map, ← htexts]
  | composite n ms => simp [chars, render, rest, name]

theorem rest_composite (n : String) (ms : List (String × Expansion)) :
    ∃ ms', ms.Perm ms' ∧ ∀ t, (composite n ms).rest t =
      '(' :: (['|'].intercalate (ms'.map fun m => (segment m).toList) ++ ')' :: t) := by
  obtain ⟨ms', hperm, hjoin⟩ := exists_perm_joinSorted ms
  refine ⟨ms', hperm, fun t => ?_⟩
  simp [rest, hjoin, Function.comp_def]

theorem segment_append (m : String × Expansion) (t : List Char) :
    (segment m).toList ++ t = m.2.chars ++ '-' :: (m.1.toList ++ t) := by
  simp [segment, chars]

theorem stopped_rest (e : Expansion) {t : List Char} (ht : Stopped closers t) :
    Stopped ('(' :: closers) (e.rest t) := by
  cases e with
  | bare n => exact ht.cons_stops _
  | collection n es => exact stopped_cons.mpr List.mem_cons_self
  | composite n ms => exact stopped_cons.mpr List.mem_cons_self

theorem ne_open_of_stopped {t u : List Char} (ht : Stopped closers t) : t ≠ '(' :: u := by
  rintro rfl
  exact absurd (stopped_cons.mp ht) (by decide)

theorem Readable.name_avoids {e : Expansion} (he : e.Readable) :
    Avoids ('(' :: closers) e.name := by
  cases he <;> assumption

/-- The names are read first. -/
theorem Readable.split {e e' : Expansion} (he : e.Readable) (he' : e'.Readable)
    {t t' : List Char} (ht : Stopped closers t) (ht' : Stopped closers t')
    (h : e.chars ++ t = e'.chars ++ t') : e.name = e'.name ∧ e.rest t = e'.rest t' := by
  rw [chars_append, chars_append] at h
  exact he.name_avoids.append_inj he'.name_avoids (stopped_rest e ht) (stopped_rest e' ht') h

/-! ### What stands between parentheses -/

section

variable {n n' : String} {es es' : List Expansion} {ms ns : List (String × Expansion)}
  {t t' : List Char}

theorem rest_collection_inj (hes : es ≠ []) (hes' : es' ≠ [])
    (hread : ∀ e ∈ es, ∀ e' ∈ es', ReadBack closers chars Alike e e')
    (h : (collection n es).rest t = (collection n' es').rest t') :
    List.Forall₂ Alike es es' ∧ t = t' :=
  intercalate_readBack (by decide) (by decide) (by decide) hes hes' hread (List.cons.inj h).2

/-- A dash follows the tree of a member and then its name. -/
theorem segment_readBack {x y : String × Expansion} (hx : Avoids ('(' :: closers) x.1)
    (hy : Avoids ('(' :: closers) y.1) (htree : ReadBack closers chars Alike x.2 y.2) :
    ReadBack closers (fun m => (segment m).toList) MemberAlike x y := by
  intro t t' ht ht' h
  rw [segment_append, segment_append] at h
  obtain ⟨halike, hdash⟩ := htree _ _ (stopped_cons.mpr (by decide))
    (stopped_cons.mpr (by decide)) h
  obtain ⟨hname, hrest⟩ := hx.append_inj hy (ht.cons_stops _) (ht'.cons_stops _)
    (List.cons.inj hdash).2
  exact ⟨⟨hname, halike⟩, hrest⟩

theorem rest_composite_inj (hms : ms ≠ []) (hns : ns ≠ [])
    (hnames : ∀ m ∈ ms, Avoids ('(' :: closers) m.1)
    (hnames' : ∀ m ∈ ns, Avoids ('(' :: closers) m.1)
    (hread : ∀ x ∈ ms, ∀ y ∈ ns, ReadBack closers chars Alike x.2 y.2)
    (h : (composite n ms).rest t = (composite n' ns).rest t') :
    Alike (composite n ms) (composite n ns) ∧ t = t' := by
  obtain ⟨ms', hperm, hrest⟩ := rest_composite n ms
  obtain ⟨ns', hperm', hrest'⟩ := rest_composite n' ns
  rw [hrest, hrest'] at h
  have hsegment (x : String × Expansion) (hx : x ∈ ms') (y : String × Expansion) (hy : y ∈ ns') :
      ReadBack closers (fun m => (segment m).toList) MemberAlike x y := by
    have hx' := hperm.mem_iff.mpr hx
    have hy' := hperm'.mem_iff.mpr hy
    exact segment_readBack (hnames x hx') (hnames' y hy') (hread x hx' y hy')
  have hms' : ms' ≠ [] := by
    rintro rfl
    exact hms hperm.eq_nil
  have hns' : ns' ≠ [] := by
    rintro rfl
    exact hns hperm'.eq_nil
  obtain ⟨halike, ht⟩ := intercalate_readBack (by decide) (by decide) (by decide) hms' hns'
    hsegment (List.cons.inj h).2
  exact ⟨.of_perm_members hperm hperm' halike, ht⟩

/-- Inside a collection no dash follows the first tree, inside a composite one
does. -/
theorem rest_collection_ne_composite (hes : es ≠ []) (hms : ms ≠ [])
    (hread : ∀ e ∈ es, ∀ m ∈ ms, ∀ u u', Stopped closers u → Stopped closers u' →
      e.chars ++ u = m.2.chars ++ u' → u = u') :
    (collection n es).rest t ≠ (composite n' ms).rest t' := by
  intro h
  obtain ⟨ms', hperm, hrest⟩ := rest_composite n' ms
  have hms' : ms' ≠ [] := by
    rintro rfl
    exact hms hperm.eq_nil
  obtain ⟨e, es, rfl⟩ := List.exists_cons_of_ne_nil hes
  obtain ⟨m, ms', rfl⟩ := List.exists_cons_of_ne_nil hms'
  obtain ⟨x, u, hx, hleft⟩ := intercalate_cons_append '|' ')' e.chars (es.map chars) t
  obtain ⟨x', u', -, hright⟩ := intercalate_cons_append '|' ')' (segment m).toList
    (ms'.map fun m => (segment m).toList) t'
  have hstop : Stopped closers (x :: u) := by
    rcases hx with rfl | rfl <;> exact stopped_cons.mpr (by decide)
  rw [hrest, rest, List.map_cons, List.map_cons, hleft, hright, segment_append] at h
  have hdash := hread e List.mem_cons_self m (hperm.mem_iff.mpr List.mem_cons_self) _ _ hstop
    (stopped_cons.mpr (by decide)) (List.cons.inj h).2
  rcases hx with rfl | rfl <;> exact absurd (List.cons.inj hdash).1 (by decide)

end

/-- The text of a tree, with a closer behind it, is that of alike trees only. -/
theorem readBack_of_readable {e e' : Expansion} (he : e.Readable) (he' : e'.Readable) :
    ReadBack closers chars Alike e e' := by
  induction e generalizing e' with
  | bare n =>
    intro t t' ht ht' h
    obtain ⟨hname, hrest⟩ := he.split he' ht ht' h
    -- What follows a bare name is no parenthesis, so the other tree is bare too.
    cases e' with
    | bare n' => exact ⟨(show n = n' from hname) ▸ .bare n, hrest⟩
    | collection n' es' => exact absurd hrest (ne_open_of_stopped ht)
    | composite n' ns => exact absurd hrest (ne_open_of_stopped ht)
  | collection n es ih =>
    intro t t' ht ht' h
    obtain ⟨hname, hrest⟩ := he.split he' ht ht' h
    cases he with
    | collection _ hes harguments =>
      cases he' with
      | bare => exact absurd hrest.symm (ne_open_of_stopped ht')
      | @collection n' es' _ hes' harguments' =>
        obtain ⟨halike, heq⟩ := rest_collection_inj hes hes'
          (fun e hmem e' hmem' => ih e hmem (harguments e hmem) (harguments' e' hmem')) hrest
        exact ⟨(show n = n' from hname) ▸ .collection n halike, heq⟩
      | composite _ hns _ htrees =>
        refine absurd hrest (rest_collection_ne_composite hes hns ?_)
        intro e hmem m hm u u' hu hu' heq
        exact (ih e hmem (harguments e hmem) (htrees m hm) u u' hu hu' heq).2
  | composite n ms ih =>
    intro t t' ht ht' h
    obtain ⟨hname, hrest⟩ := he.split he' ht ht' h
    cases he with
    | composite _ hms hnames htrees =>
      cases he' with
      | bare => exact absurd hrest.symm (ne_open_of_stopped ht')
      | collection _ hes' harguments' =>
        refine absurd hrest.symm (rest_collection_ne_composite hes' hms ?_)
        intro e hmem m hm u u' hu hu' heq
        exact (ih m hm (htrees m hm) (harguments' e hmem) u' u hu' hu heq.symm).2.symm
      | @composite n' ns _ hns hnames' htrees' =>
        obtain ⟨halike, heq⟩ := rest_composite_inj hms hns hnames hnames'
          (fun x hx y hy => ih x hx (htrees x hx) (htrees' y hy)) hrest
        exact ⟨(show n = n' from hname) ▸ halike, heq⟩

theorem alike_of_render_eq {e e' : Expansion} (he : e.Readable) (he' : e'.Readable)
    (h : e.render = e'.render) : e.Alike e' := by
  refine (readBack_of_readable he he' [] [] (stopped_nil _) (stopped_nil _) ?_).1
  rw [chars, chars, h]

end Expansion

/-! ### The trees of the walk -/

namespace Descriptor

variable {c : Catalog} {cfg : Config} {path : Path} {d : Descriptor}

theorem Expands.name_eq {e : Expansion} (h : d.Expands c cfg path e) : e.name = d.fullName := by
  obtain ⟨-, step⟩ := expands_iff.mp h
  cases step <;> rfl

theorem mem_members_of_category {mode : SelectionMode} {ms : List Member}
    (h : d.category cfg = .composite mode ms) {m : Member} (hm : m ∈ ms) :
    m ∈ d.definition.members := by
  rw [(members_of_category h).1] at hm
  exact List.mem_of_mem_filter (List.mem_of_mem_filter hm)

theorem readable_of_expands (hc : c.NamesAvoid ('(' :: Expansion.closers)) {e : Expansion}
    (h : d.Expands c cfg path e) : e.Readable := by
  induction e generalizing path d with
  | bare n =>
    obtain ⟨hd, step⟩ := expands_iff.mp h
    have hname := hd.fullName_avoids hc.types (by decide) rfl
    cases step <;> exact .bare hname
  | collection n es ih =>
    obtain ⟨hd, step⟩ := expands_iff.mp h
    have hname := hd.fullName_avoids hc.types (by decide) rfl
    cases step with
    | collection free kind arguments =>
      refine .collection hname ?_ fun e he => ?_
      · rintro rfl
        exact arguments_ne_nil_of_category kind (List.forall₂_nil_right_iff.mp arguments)
      · obtain ⟨a, -, ha⟩ := exists_mem_of_forall₂ arguments he
        exact ih e he ha
  | composite n xs ih =>
    obtain ⟨hd, step⟩ := expands_iff.mp h
    have hname := hd.fullName_avoids hc.types (by decide) rfl
    cases step with
    | composite free kind room members =>
      refine .composite hname ?_ (fun x hx => ?_) fun x hx => ?_
      · rintro rfl
        exact (members_of_category kind).2 (List.forall₂_nil_right_iff.mp members)
      · obtain ⟨m, hm, hmx, -⟩ := exists_mem_of_forall₂ members hx
        exact hmx ▸ (hc d.definition hd.definition_mem).2 m (mem_members_of_category kind hm)
      · obtain ⟨m, -, -, v, -, hv⟩ := exists_mem_of_forall₂ members hx
        exact ih x hx hv

end Descriptor

namespace Catalog

variable {c c' : Catalog} {cfg cfg' : Config} {r r' : TypeRef}

theorem readable_of_expansion (hc : c.NamesAvoid ['(', ')', '|', '-']) {e : Expansion}
    (h : c.expansion cfg r = .ok e) : e.Readable := by
  obtain ⟨d, -, hexpands⟩ := expansion_eq_ok_iff.mp h
  exact Descriptor.readable_of_expands hc hexpands

/-- Unique readability: references of one text, under whatever settings and in
whatever catalogs without marks in names, expand to the same tree up to the
order of members. -/
theorem expansion_alike_of_memberFingerprint_eq (hc : c.NamesAvoid ['(', ')', '|', '-'])
    (hc' : c'.NamesAvoid ['(', ')', '|', '-']) {s : String}
    (h : c.memberFingerprint cfg r = .ok s) (h' : c'.memberFingerprint cfg' r' = .ok s) :
    ∃ e e', c.expansion cfg r = .ok e ∧ c'.expansion cfg' r' = .ok e' ∧ e.Alike e' := by
  obtain ⟨e, he, htext⟩ := map_eq_ok_iff.mp h
  obtain ⟨e', he', htext'⟩ := map_eq_ok_iff.mp h'
  have halike : e.Alike e' := Expansion.alike_of_render_eq (readable_of_expansion hc he)
    (readable_of_expansion hc' he') (htext.trans htext'.symm)
  exact ⟨e, e', he, he', halike⟩

/-! ### Fingerprints without the name of the type -/

theorem resolve_of_no_arguments {context : List Descriptor} {place name : String}
    {d : Descriptor} (h : (TypeRef.named name []).resolve c context place = .ok d) :
    d.name = name ∧ d.arguments = [] := by
  rw [TypeRef.resolve] at h
  split at h
  · cases h
  · rename_i definition hfind
    split at h
    · cases h
      have hname : definition.name = name := NameTable.nameOf_of_find? hfind
      exact ⟨hname, rfl⟩
    · cases h

theorem exists_expands_of_fingerprintOf {name s : String} (h : c.fingerprintOf cfg name = .ok s) :
    ∃ d e, (TypeRef.named name []).resolve c [] entryPoint = .ok d ∧ d.Expands c cfg [] e ∧
      d.name = name ∧ d.arguments = [] ∧ e.body = s := by
  obtain ⟨e, he, hbody⟩ := map_eq_ok_iff.mp h
  obtain ⟨d, hd, hexpands⟩ := expansion_eq_ok_iff.mp he
  obtain ⟨hname, hargs⟩ := resolve_of_no_arguments hd
  exact ⟨d, e, hd, hexpands, hname, hargs, hbody⟩

theorem alike_of_body_eq (hc : c.NamesAvoid ['(', ')', '|', '-'])
    (hc' : c'.NamesAvoid ['(', ')', '|', '-']) {d d' : Descriptor} {e e' : Expansion}
    (h : d.Expands c cfg [] e) (h' : d'.Expands c' cfg [] e') (hargs : d.arguments = [])
    (hargs' : d'.arguments = []) (hname : d.name = d'.name) (hbody : e.body = e'.body) :
    e.Alike e' := by
  have hfull : d.fullName = d'.fullName := by
    rw [Descriptor.fullName_of_nil hargs, Descriptor.fullName_of_nil hargs', hname]
  have hread := Descriptor.readable_of_expands hc h
  have hread' := Descriptor.readable_of_expands hc' h'
  refine Expansion.alike_of_render_eq hread hread' ?_
  rcases h.bare_or_composite hargs with rfl | ⟨xs, hxs, rfl⟩ <;>
    rcases h'.bare_or_composite hargs' with rfl | ⟨xs', hxs', rfl⟩
  · exact hfull
  · exact absurd hbody.symm (Expansion.joinSorted_segments_ne_empty hxs')
  · exact absurd hbody (Expansion.joinSorted_segments_ne_empty hxs)
  · simp only [Expansion.body] at hbody
    rw [Expansion.render, Expansion.render, hfull, hbody]

def listType : Definition :=
  { name := "List", genericArity := 1, contracts := ["System.Collections.Generic.IList"] }

/-- A list of the type itself, and one more of it. -/
def nodeMembers : List Member :=
  [⟨"Items", .named "List" [.named "Node" []], false, true, true⟩,
    ⟨"Next", .named "Node" [], false, true, true⟩]

/-- A type with the given members, after the type of lists. -/
def nodes (members : List Member) : Catalog :=
  ⟨[listType, { name := "Node", members }],
    List.pairwise_map.mp (show ["List", "Node"].Pairwise (· < ·) by decide)⟩

theorem expansion_nodes :
    (nodes nodeMembers).expansion {} (.named "Node" []) = .ok (.composite "Node"
      [("Items", .collection "List`1" [.bare "Node"]), ("Next", .bare "Node")]) := by
  let node : Descriptor := ⟨{ name := "Node", members := nodeMembers }, []⟩
  have hnode : node.From (nodes nodeMembers) := .intro rfl (by simp [node])
  have hself : node.Expands (nodes nodeMembers) {} (.opened [node]) (.bare "Node") :=
    hnode.expands_of_mem rfl List.mem_cons_self
  have hlist : Descriptor.Expands (nodes nodeMembers) {} (.opened [node]) ⟨listType, [node]⟩
      (.collection "List`1" [.bare "Node"]) := by
    have hname : Descriptor.fullName ⟨listType, [node]⟩ = "List`1" := by cbv
    rw [Descriptor.expands_iff, ← hname]
    exact ⟨.intro rfl (by simpa using hnode), .collection rfl rfl (.cons hself .nil)⟩
  have hexpands : node.Expands (nodes nodeMembers) {} (.opened []) (.composite "Node"
      [("Items", .collection "List`1" [.bare "Node"]), ("Next", .bare "Node")]) :=
    hnode.expands_of_members rfl rfl rfl (by decide)
      (.cons ⟨rfl, _, rfl, hlist⟩ (.cons ⟨rfl, _, rfl, hself⟩ .nil))
  exact expansion_eq_ok_iff.mpr ⟨node, rfl, hexpands⟩

theorem nodes_reordered : (nodes nodeMembers).Reordered (nodes nodeMembers.reverse) :=
  .cons ⟨⟨rfl, rfl, rfl⟩, .refl _⟩ (.cons ⟨⟨rfl, rfl, rfl⟩, (List.reverse_perm _).symm⟩ .nil)

theorem expansion_alike_nodes_reverse :
    ∃ e e', (nodes nodeMembers).expansion {} (.named "Node" []) = .ok e ∧
      (nodes nodeMembers.reverse).expansion {} (.named "Node" []) = .ok e' ∧ e.Alike e' := by
  have h : (nodes nodeMembers).memberFingerprint {} (.named "Node" []) =
      .ok "Node(List`1(Node)-Items|Node-Next)" :=
    map_eq_ok_iff.mpr ⟨_, expansion_nodes, by simp [Expansion.render, Expansion.renderAll,
      Expansion.segments, Expansion.joinSorted, List.mergeSort]⟩
  exact expansion_alike_of_memberFingerprint_eq (by decide) (by decide) h
    (memberFingerprint_reordered nodes_reordered h)

end Catalog

end ShapeLedger
