import ShapeLedger.Proofs.Lockstep

/-!
What back-references leave of a shape. Where they are pinned, as they always
are in a catalog without generic types, a fingerprint determines the unfolding
of its type to every depth. Below two composites of one name a back-reference
may go to either, and types that unfold differently can share a fingerprint.
-/

namespace ShapeLedger

open Descriptor

namespace Catalog

variable {c c' : Catalog} {cfg : Config}

/-- The walk of the type `name` finds a tree in which no bare name stands below
two composites of that name. -/
def CutsPinned (c : Catalog) (cfg : Config) (name : String) : Prop :=
  ∀ e, c.expansion cfg (.named name []) = .ok e → e.Pinned []

def Nongeneric (c : Catalog) : Prop := ∀ d ∈ c.items, d.genericArity = 0

theorem Nongeneric.arguments_of_resolve (hc : c.Nongeneric) {place : String} {r : TypeRef}
    {d : Descriptor} (h : r.resolve c [] place = .ok d) : d.arguments = [] := by
  cases r with
  | param index => cases h
  | named name arguments =>
    rw [TypeRef.resolve] at h
    split at h
    · cases h
    · rename_i definition hfind
      split at h
      · rename_i harity
        rw [hc definition (NameTable.mem_of_find? hfind)] at harity
        cases List.eq_nil_of_length_eq_zero harity.symm
        cases h
        rfl
      · cases h

theorem holds_of_name_mem {ds : List Descriptor} (hds : ∀ o ∈ ds, o.arguments = [])
    {d : Descriptor} (hd : d.arguments = []) (h : d.fullName ∈ ds.map fullName) :
    (Path.opened ds).holds d.pathKey = true := by
  obtain ⟨o, ho, hname⟩ := List.mem_map.mp h
  refine Path.holds_opened_iff.mpr (List.mem_map.mpr ⟨o, ho, ?_⟩)
  rw [fullName_of_nil (hds o ho), fullName_of_nil hd] at hname
  rw [pathKey_of_nil (hds o ho), pathKey_of_nil hd, hname]

/-- Without parameters a type is open at most once, so its name is pinned. -/
theorem Nongeneric.pinned (hc : c.Nongeneric) {ds : List Descriptor} {d : Descriptor}
    {e : Expansion} (hds : ∀ o ∈ ds, o.arguments = []) (hnodup : (ds.map fullName).Nodup)
    (hd : d.arguments = []) (h : d.Expands c cfg (.opened ds) e) : e.Pinned (ds.map fullName) := by
  induction e generalizing ds d with
  | bare n => exact .bare (List.nodup_iff_count.mp hnodup n)
  | collection n es => exact absurd hd (arguments_ne_nil_of_category h.arguments.1)
  | composite n xs ih =>
    have hn : n = d.fullName := h.name_eq
    obtain ⟨-, step⟩ := expands_iff.mp h
    cases step with
    | composite free kind room members =>
      have hfresh : d.fullName ∉ ds.map fullName := by
        intro hmem
        rw [holds_of_name_mem hds hd hmem] at free
        cases free
      refine .composite fun x hx => ?_
      obtain ⟨m, -, -, v, hv, hexpands⟩ := exists_mem_of_forall₂ members hx
      rw [memberType, hd] at hv
      have hopen : ∀ o ∈ d :: ds, o.arguments = [] := by
        intro o ho
        rcases List.mem_cons.mp ho with rfl | ho
        · exact hd
        · exact hds o ho
      exact ih x hx hopen (List.nodup_cons.mpr ⟨hfresh, hnodup⟩) (hc.arguments_of_resolve hv)
        hexpands

theorem Nongeneric.cutsPinned (hc : c.Nongeneric) (cfg : Config) (name : String) :
    c.CutsPinned cfg name := by
  intro e he
  obtain ⟨d, hd, hexpands⟩ := expansion_eq_ok_iff.mp he
  have hopened : d.Expands c cfg (.opened []) e := hexpands
  have hnodup : (([] : List Descriptor).map fullName).Nodup := .nil
  exact hc.pinned (by simp) hnodup (hc.arguments_of_resolve hd) hopened

/-! ### Fingerprints of one text -/

/-- Different shape, different string: where back-references are pinned, types
of one name and one fingerprint unfold alike to every depth. -/
theorem unfolding_alike_of_fingerprintOf_eq
    (hc : c.NamesAvoid ['(', ')', '|', '-', '[', ']', ',', '\x60'])
    (hc' : c'.NamesAvoid ['(', ')', '|', '-', '[', ']', ',', '\x60']) {name s : String}
    (h : c.fingerprintOf cfg name = .ok s) (h' : c'.fingerprintOf cfg name = .ok s)
    (hpinned : c.CutsPinned cfg name) (k : Nat) :
    ∃ t t', c.unfolding cfg k (.named name []) = .ok t ∧
      c'.unfolding cfg k (.named name []) = .ok t' ∧ t.Alike t' := by
  obtain ⟨d, e, hd, hexpands, hname, hargs, hbody⟩ := exists_expands_of_fingerprintOf h
  obtain ⟨d', e', hd', hexpands', hname', hargs', hbody'⟩ := exists_expands_of_fingerprintOf h'
  have halike : e.Alike e' := alike_of_body_eq (hc.mono (by decide))
    (hc'.mono (by decide)) hexpands hexpands' hargs hargs' (hname.trans hname'.symm)
    (hbody.trans hbody'.symm)
  have hpin : e.Pinned [] := hpinned e (expansion_eq_ok_iff.mpr ⟨d, hd, hexpands⟩)
  obtain ⟨t, t', ht, ht', hsame⟩ := pairedAlike (hc.mono (by decide)) (hc'.mono (by decide)) k
    .nil ⟨hexpands, hexpands', halike, hpin⟩
  refine ⟨t, t', ?_, ?_, hsame⟩
  · rw [unfolding, hd]
    exact ht
  · rw [unfolding, hd']
    exact ht'

/-- A list is no composite, so the only one above a bare name is the node. -/
theorem unfolding_alike_nodes_reverse :
    (nodes nodeMembers).CutsPinned {} "Node" ∧ ∀ k, ∃ t t',
      (nodes nodeMembers).unfolding {} k (.named "Node" []) = .ok t ∧
        (nodes nodeMembers.reverse).unfolding {} k (.named "Node" []) = .ok t' ∧
          t.Alike t' := by
  have h : (nodes nodeMembers).fingerprintOf {} "Node" = .ok "List`1(Node)-Items|Node-Next" :=
    map_eq_ok_iff.mpr ⟨_, expansion_nodes, by simp [Expansion.body, Expansion.render,
      Expansion.renderAll, Expansion.segments, Expansion.joinSorted, List.mergeSort]⟩
  have hpinned : (nodes nodeMembers).CutsPinned {} "Node" := by
    intro e he
    cases expansion_nodes.symm.trans he
    have hbare : Expansion.Pinned ["Node"] (.bare "Node") := .bare (by decide)
    exact .composite (by simpa using ⟨.collection (by simpa using hbare), hbare⟩)
  exact ⟨hpinned, unfolding_alike_of_fingerprintOf_eq (by decide) (by decide) h
    (fingerprint_reordered nodes_reordered h) hpinned⟩

/-! ### Back-references below two composites of one name -/

/-- A generic cell that is followed by what `tail` refers to. -/
def cellType (tail : TypeRef) : Definition :=
  { name := "Cell", genericArity := 1,
    members := [⟨"Head", .param 0, false, true, true⟩, ⟨"Tail", tail, false, true, true⟩] }

/-- Bytes in cells in cells. -/
def chains (tail : TypeRef) : Catalog :=
  ⟨[{ name := "Byte" }, cellType tail,
    { name := "Root", members := [⟨"Lists", .named "Cell" [.named "Cell" [.named "Byte" []]],
      false, true, true⟩] }],
    List.pairwise_map.mp (show ["Byte", "Cell", "Root"].Pairwise (· < ·) by decide)⟩

/-- The tail of a cell is of the type of the cell. -/
def ownTail : TypeRef := .named "Cell" [.param 0]

/-- The tail of every cell has cells in it. -/
def outerTail : TypeRef := .named "Cell" [.named "Cell" [.named "Byte" []]]

def cell (head tail : Expansion) : Expansion :=
  .composite "Cell`1" [("Head", head), ("Tail", tail)]

theorem alike_of_cell_alike {a b a' b' : Expansion} (h : (cell a b).Alike (cell a' b')) :
    a.Alike a' ∧ b.Alike b' := by
  have hhead : ("Head", a) ∈ [("Head", a), ("Tail", b)] := List.mem_cons_self
  have htail : ("Tail", b) ∈ [("Head", a), ("Tail", b)] := List.mem_cons_of_mem _ List.mem_cons_self
  obtain ⟨m, hm, hname, ha⟩ := h.exists_member hhead
  obtain ⟨m', hm', hname', hb⟩ := h.exists_member htail
  simp only [List.mem_cons, List.not_mem_nil, or_false] at hm hm'
  rcases hm with rfl | rfl
  · rcases hm' with rfl | rfl
    · simp at hname'
    · exact ⟨ha, hb⟩
  · simp at hname

/-- The tree of the walk does not tell the tails apart. -/
theorem expansion_chains {tail : TypeRef} (h : tail = ownTail ∨ tail = outerTail) :
    (chains tail).expansion {} (.named "Root" []) = .ok (.composite "Root"
      [("Lists", cell (cell (.bare "Byte") (.bare "Cell`1")) (.bare "Cell`1"))]) := by
  let byte : Descriptor := ⟨{ name := "Byte" }, []⟩
  let inner : Descriptor := ⟨cellType tail, [byte]⟩
  let outer : Descriptor := ⟨cellType tail, [inner]⟩
  let root : Descriptor :=
    ⟨{ name := "Root", members := [⟨"Lists", outerTail, false, true, true⟩] }, []⟩
  have hbyte : byte.From (chains tail) := .intro rfl (by simp [byte])
  have hinner : inner.From (chains tail) := .intro rfl (by simpa [inner] using hbyte)
  have houter : outer.From (chains tail) := .intro rfl (by simpa [outer] using hinner)
  have hroot : root.From (chains tail) := .intro rfl (by simp [root])
  have hname : inner.fullName = "Cell`1" := by cbv
  have hname' : outer.fullName = "Cell`1" := by cbv
  have hleaf : byte.Expands (chains tail) {} (.opened [inner, outer, root]) (.bare "Byte") :=
    expands_iff.mpr ⟨hbyte, .leaf rfl rfl⟩
  have htail : ∃ v, inner.memberType (chains tail) ⟨"Tail", tail, false, true, true⟩ = .ok v ∧
      v.Expands (chains tail) {} (.opened [inner, outer, root]) (.bare "Cell`1") := by
    rcases h with rfl | rfl
    · exact ⟨inner, rfl, hinner.expands_of_mem hname List.mem_cons_self⟩
    · have hmem : outer ∈ [inner, outer, root] := List.mem_cons_of_mem _ List.mem_cons_self
      exact ⟨outer, rfl, houter.expands_of_mem hname' hmem⟩
  have htail' : ∃ v, outer.memberType (chains tail) ⟨"Tail", tail, false, true, true⟩ = .ok v ∧
      v.Expands (chains tail) {} (.opened [outer, root]) (.bare "Cell`1") := by
    rcases h with rfl | rfl <;>
      exact ⟨outer, rfl, houter.expands_of_mem hname' List.mem_cons_self⟩
  have hchain : inner.Expands (chains tail) {} (.opened [outer, root])
      (cell (.bare "Byte") (.bare "Cell`1")) :=
    hinner.expands_of_members hname (by cbv) rfl (Nat.le_of_ble_eq_true rfl)
      (.cons ⟨rfl, byte, rfl, hleaf⟩ (.cons ⟨rfl, htail⟩ .nil))
  have hchains : outer.Expands (chains tail) {} (.opened [root])
      (cell (cell (.bare "Byte") (.bare "Cell`1")) (.bare "Cell`1")) :=
    houter.expands_of_members hname' (by cbv) rfl (Nat.le_of_ble_eq_true rfl)
      (.cons ⟨rfl, inner, rfl, hchain⟩ (.cons ⟨rfl, htail'⟩ .nil))
  have htop : root.Expands (chains tail) {} (.opened []) (.composite "Root"
      [("Lists", cell (cell (.bare "Byte") (.bare "Cell`1")) (.bare "Cell`1"))]) :=
    hroot.expands_of_members rfl rfl rfl (Nat.le_of_ble_eq_true rfl)
      (.cons ⟨rfl, outer, rfl, hchains⟩ .nil)
  exact expansion_eq_ok_iff.mpr ⟨root, rfl, htop⟩

/-- The tail of the inner cells is of another type, and four levels down a byte
stands where a cell stands, but the fingerprint is the same. -/
theorem fingerprintOf_eq_chains_not_alike :
    (chains ownTail).NamesAvoid ['(', ')', '|', '-', '[', ']', ',', '\x60'] ∧
      (chains outerTail).NamesAvoid ['(', ')', '|', '-', '[', ']', ',', '\x60'] ∧
      (∃ s, (chains ownTail).fingerprintOf {} "Root" = .ok s ∧
        (chains outerTail).fingerprintOf {} "Root" = .ok s) ∧
      ∃ t t', (chains ownTail).unfolding {} 4 (.named "Root" []) = .ok t ∧
        (chains outerTail).unfolding {} 4 (.named "Root" []) = .ok t' ∧ ¬ t.Alike t' := by
  have hs : ∀ tail, tail = ownTail ∨ tail = outerTail → (chains tail).fingerprintOf {} "Root" =
      .ok "Cell`1(Cell`1(Byte-Head|Cell`1-Tail)-Head|Cell`1-Tail)-Lists" :=
    fun tail h => map_eq_ok_iff.mpr ⟨_, expansion_chains h, by simp [cell, Expansion.body,
      Expansion.render, Expansion.segments, Expansion.joinSorted, List.mergeSort]⟩
  let cut : Expansion := .bare "Cell`1"
  let byte : Expansion := .bare "Byte"
  let deep : Expansion := cell (cell byte cut) (cell cut cut)
  have hown : (chains ownTail).unfolding {} 4 (.named "Root" []) =
      .ok (.composite "Root" [("Lists", cell (cell byte (cell byte cut)) deep)]) := rfl
  have houter : (chains outerTail).unfolding {} 4 (.named "Root" []) =
      .ok (.composite "Root" [("Lists", cell (cell byte (cell cut cut)) deep)]) := rfl
  refine ⟨by decide, by decide, ⟨_, hs _ (.inl rfl), hs _ (.inr rfl)⟩, _, _, hown, houter, ?_⟩
  intro hroot
  obtain ⟨m, hm, -, hlists⟩ := hroot.exists_member List.mem_cons_self
  cases List.mem_singleton.mp hm
  have hinner := (alike_of_cell_alike hlists).1
  have htail := (alike_of_cell_alike hinner).2
  have hname : "Byte" = "Cell`1" := (alike_of_cell_alike htail).1.name_eq
  exact absurd hname (by decide)

end Catalog

end ShapeLedger
