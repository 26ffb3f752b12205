import ShapeLedger.Proofs.Alike
import ShapeLedger.Proofs.Related

/-!
The order of members is irrelevant, in all definitions of a catalog at once. A
member is visited on a path that does not depend on its siblings, so permuted
member lists yield permuted subtrees, and the text of a tree does not depend on
the order of its members. Of several faults another one may come first, so
faults agree only in that there is one.
-/

namespace ShapeLedger

/-- The same definition with its members in some order. -/
structure Definition.Reordered (d d' : Definition) : Prop extends d.SameHead d' where
  members : d.members.Perm d'.members

def Catalog.Reordered (c c' : Catalog) : Prop :=
  List.Forall₂ Definition.Reordered c.items c'.items

namespace Definition

variable {d d' : Definition}

theorem keepsHead_reordered : KeepsHead Reordered := .of_sameHead Reordered.toSameHead

theorem Reordered.symm (h : d.Reordered d') : d'.Reordered d :=
  ⟨h.toSameHead.symm, h.members.symm⟩

theorem Reordered.unreserved (h : d.Reordered d') (cfg : Config) :
    (d.unreserved cfg).Perm (d'.unreserved cfg) :=
  h.members.filter _

theorem Reordered.selectionMode (h : d.Reordered d') (cfg : Config) :
    d.selectionMode cfg = d'.selectionMode cfg := by
  rw [Definition.selectionMode, Definition.selectionMode, (h.unreserved cfg).any_eq]

theorem Reordered.selected (h : d.Reordered d') (cfg : Config) :
    (d.selected cfg).Perm (d'.selected cfg) := by
  rw [Definition.selected, Definition.selected, h.selectionMode cfg]
  exact (h.unreserved cfg).filter _

end Definition

theorem Catalog.Reordered.symm {c c' : Catalog} (h : c.Reordered c') : c'.Reordered c :=
  List.Forall₂.flip (h.imp fun _ _ hd => hd.symm)

theorem Catalog.Reordered.find? {c c' : Catalog} (h : c.Reordered c') (name : String) :
    Option.Rel Definition.Reordered (c.find? name) (c'.find? name) :=
  NameTable.find?_related (R := Definition.Reordered) (fun _ _ hd => hd.name) h name

namespace Descriptor

variable {c c' : Catalog} {cfg : Config} {d d' : Descriptor}

theorem category_reordered (h : Related Definition.Reordered d d') :
    Category.Corresponds List.Perm (d.category cfg) (d'.category cfg) := by
  have hdef := h.definition
  refine category_corresponds (fun hms => ?_) (hdef.isString cfg) h.isEmpty_arguments
    (hdef.isEnumerable cfg) fun _ _ => hdef.selected cfg
  exact ⟨fun hnil => (hnil ▸ hms).nil_eq.symm, fun hnil => (hnil ▸ hms).eq_nil⟩

theorem alike_of_perm_members {n : String} {path : Path} {ms ms' : List Member}
    {xs ys : List (String × Expansion)} (hperm : ms.Perm ms')
    (hxy : List.Forall₂ Expansion.MemberAlike xs ys)
    (hys : List.Forall₂ (MemberExpands c cfg path d) ms ys) :
    ∃ zs, List.Forall₂ (MemberExpands c cfg path d) ms' zs ∧
      Expansion.Alike (.composite n xs) (.composite n zs) := by
  obtain ⟨zs, hzs, hzy⟩ := List.perm_comp_forall₂ hperm.symm hys
  exact ⟨zs, hzs, .of_perm_members (.refl xs) hzy hxy⟩

theorem memberExpands_reordered (hc : c.Reordered c') (h : Related Definition.Reordered d d')
    (hd' : d'.From c') {path : Path} {m : Member} {x : String × Expansion}
    (hm : MemberExpands c cfg path d m x)
    (ih : ∀ {v v'}, Related Definition.Reordered v v' → v'.From c' → v.Expands c cfg path x.2 →
      ∃ e', v'.Expands c' cfg path e' ∧ x.2.Alike e') :
    ∃ y, MemberExpands c' cfg path d' m y ∧ Expansion.MemberAlike x y := by
  obtain ⟨hname, v, hv, hexpands⟩ := hm
  have hagree : Agree (Related Definition.Reordered) (d.memberType c m) (d'.memberType c' m) :=
    h.memberType Definition.keepsHead_reordered rfl rfl fun n _ => hc.find? n
  rw [hv] at hagree
  generalize hv' : d'.memberType c' m = r at hagree
  cases hagree with
  | @ok _ v' hvv' =>
    obtain ⟨e', he', halike⟩ := ih hvv' (from_of_memberType hd' hv') hexpands
    exact ⟨(m.name, e'), ⟨rfl, v', hv', he'⟩, hname.symm, halike⟩

/-- In the reordered catalog a type expands to an alike tree. -/
theorem expands_reordered (hc : c.Reordered c') {path : Path} {e : Expansion}
    (h : Related Definition.Reordered d d') (hd' : d'.From c') (he : d.Expands c cfg path e) :
    ∃ e', d'.Expands c' cfg path e' ∧ e.Alike e' := by
  have hR := Definition.keepsHead_reordered
  have hcat : Category.Corresponds List.Perm (d.category cfg) (d'.category cfg) :=
    category_reordered h
  induction e generalizing path d d' with
  | bare n =>
    obtain ⟨hd, step⟩ := expands_iff.mp he
    refine ⟨.bare d'.fullName, expands_iff.mpr ⟨hd', ?_⟩, ?_⟩
    · cases step with
      | held held => exact .held (h.pathKey hR ▸ held)
      | leaf free kind => exact .leaf (h.pathKey hR ▸ free) (kind ▸ hcat).eq_leaf
    · cases step <;> exact h.fullName hR ▸ .bare _
  | collection n es ih =>
    obtain ⟨hd, step⟩ := expands_iff.mp he
    cases step with
    | collection free kind arguments =>
      obtain ⟨es', hes', halike⟩ := forall₂_transport arguments h.arguments
        fun a e a' hmem ha' hae haa' =>
          ih e hmem haa' (hd'.arguments a' ha') hae (category_reordered haa')
      refine ⟨.collection d'.fullName es', expands_iff.mpr ⟨hd', ?_⟩, ?_⟩
      · exact .collection (h.pathKey hR ▸ free) (kind ▸ hcat).eq_collection hes'
      · exact h.fullName hR ▸ .collection _ halike
  | composite n xs ih =>
    obtain ⟨hd, step⟩ := expands_iff.mp he
    cases step with
    | composite free kind room members =>
      rename_i mode ms
      obtain ⟨mode', ms', hkind', hperm⟩ := (kind ▸ hcat).eq_composite
      -- Subtrees are found in the order of the first catalog and then permuted.
      obtain ⟨ys, hys, halike⟩ := forall₂_transport members (List.forall₂_same.mpr fun _ _ => rfl)
        fun m x m' hx _ hm hmm' => hmm' ▸ memberExpands_reordered hc h hd' hm
          fun hvv' hv' hexpands => ih x hx hvv' hv' hexpands (category_reordered hvv')
      obtain ⟨zs, hzs, hall⟩ := alike_of_perm_members hperm halike hys
      refine ⟨.composite d'.fullName zs, expands_iff.mpr ⟨hd', ?_⟩, ?_⟩
      · refine .composite (h.pathKey hR ▸ free) hkind' (h.name hR ▸ room) ?_
        exact h.push hR path ▸ hzs
      · exact h.fullName hR ▸ hall

end Descriptor

theorem exists_error_congr {ε α : Type} {x y : Except ε α}
    (h : ∀ a, x = .ok a ↔ y = .ok a) : (∃ e, x = .error e) ↔ ∃ e, y = .error e := by
  cases x with
  | error e =>
    cases y with
    | error e' => simp
    | ok b => simpa using h b
  | ok a =>
    rw [(h a).mp rfl]

namespace Catalog

variable {c c' : Catalog}

theorem expansion_reordered (hc : c.Reordered c') (cfg : Config) (r : TypeRef) {e : Expansion}
    (he : c.expansion cfg r = .ok e) : ∃ e', c'.expansion cfg r = .ok e' ∧ e.Alike e' := by
  obtain ⟨d, hd, hexpands⟩ := expansion_eq_ok_iff.mp he
  have hagree := TypeRef.resolve_related Definition.keepsHead_reordered .nil entryPoint r
    fun n _ => hc.find? n
  rw [hd] at hagree
  generalize hd' : r.resolve c' [] entryPoint = x at hagree
  cases hagree with
  | @ok _ d' hdd' =>
    obtain ⟨e', he', halike⟩ :=
      Descriptor.expands_reordered hc hdd' (TypeRef.from_of_resolve (by simp) hd') hexpands
    exact ⟨e', expansion_eq_ok_iff.mpr ⟨d', hd', he'⟩, halike⟩

theorem fingerprint_reordered (hc : c.Reordered c') {cfg : Config} {r : TypeRef} {s : String}
    (h : c.fingerprint cfg r = .ok s) : c'.fingerprint cfg r = .ok s := by
  obtain ⟨e, he, rfl⟩ := map_eq_ok_iff.mp h
  obtain ⟨e', he', halike⟩ := expansion_reordered hc cfg r he
  exact map_eq_ok_iff.mpr ⟨e', he', halike.body_eq.symm⟩

theorem memberFingerprint_reordered (hc : c.Reordered c') {cfg : Config} {r : TypeRef}
    {s : String} (h : c.memberFingerprint cfg r = .ok s) :
    c'.memberFingerprint cfg r = .ok s := by
  obtain ⟨e, he, rfl⟩ := map_eq_ok_iff.mp h
  obtain ⟨e', he', halike⟩ := expansion_reordered hc cfg r he
  exact map_eq_ok_iff.mpr ⟨e', he', halike.render_eq.symm⟩

/-- Reordering members, in any number of definitions, changes no fingerprint and
makes none fail or succeed. -/
theorem fingerprint_iff_of_reordered (hc : c.Reordered c') (cfg : Config) (r : TypeRef) :
    (∀ s, c.fingerprint cfg r = .ok s ↔ c'.fingerprint cfg r = .ok s) ∧
      (∀ s, c.memberFingerprint cfg r = .ok s ↔ c'.memberFingerprint cfg r = .ok s) ∧
      ((∃ e, c.fingerprint cfg r = .error e) ↔ ∃ e, c'.fingerprint cfg r = .error e) ∧
      ((∃ e, c.memberFingerprint cfg r = .error e) ↔
        ∃ e, c'.memberFingerprint cfg r = .error e) := by
  have hbody (s : String) : c.fingerprint cfg r = .ok s ↔ c'.fingerprint cfg r = .ok s :=
    ⟨fingerprint_reordered hc, fingerprint_reordered hc.symm⟩
  have hrender (s : String) :
      c.memberFingerprint cfg r = .ok s ↔ c'.memberFingerprint cfg r = .ok s :=
    ⟨memberFingerprint_reordered hc, memberFingerprint_reordered hc.symm⟩
  exact ⟨hbody, hrender, exists_error_congr hbody, exists_error_congr hrender⟩

/-- Two members of one name, and one whose type is the cell itself. -/
def cellMembers : List Member :=
  [⟨"Next", .named "Cell" [], true, true, true⟩, ⟨"Value", .named "Int" [], true, true, true⟩,
    ⟨"Value", .named "Cell" [], true, true, true⟩]

/-- A list cell with the given members, before the type of its values. -/
def cells (members : List Member) : Catalog :=
  ⟨[{ name := "Cell", members }, { name := "Int" }],
    List.pairwise_map.mp (show ["Cell", "Int"].Pairwise (· < ·) by decide)⟩

theorem fingerprint_iff_cells_reverse :
    (cells cellMembers).Reordered (cells cellMembers.reverse) ∧
      ∀ s, (cells cellMembers).fingerprint {} (.named "Cell" []) = .ok s ↔
        (cells cellMembers.reverse).fingerprint {} (.named "Cell" []) = .ok s := by
  have h : (cells cellMembers).Reordered (cells cellMembers.reverse) :=
    .cons ⟨⟨rfl, rfl, rfl⟩, (List.reverse_perm _).symm⟩
      (.cons ⟨⟨rfl, rfl, rfl⟩, .refl _⟩ .nil)
  exact ⟨h, (fingerprint_iff_of_reordered h {} (.named "Cell" [])).1⟩

end Catalog

end ShapeLedger
