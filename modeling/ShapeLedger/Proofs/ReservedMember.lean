import ShapeLedger.Proofs.Locality

/-!
The reserved member is never seen. Two catalogs that differ only in members of
the reserved name, whatever their markers and value types and wherever they
stand, give the same fingerprints and the same faults.
-/

namespace ShapeLedger

/-- The same definition but for members of the reserved name. -/
structure Definition.SameUnreserved (cfg : Config) (d d' : Definition) : Prop
    extends d.SameHead d' where
  unreserved : d.unreserved cfg = d'.unreserved cfg

def Catalog.SameUnreserved (cfg : Config) (c c' : Catalog) : Prop :=
  List.Forall₂ (Definition.SameUnreserved cfg) c.items c'.items

theorem Definition.keepsHead_sameUnreserved (cfg : Config) : KeepsHead (SameUnreserved cfg) :=
  .of_sameHead SameUnreserved.toSameHead

theorem Definition.SameUnreserved.selected {cfg : Config} {d d' : Definition}
    (h : d.SameUnreserved cfg d') : d.selected cfg = d'.selected cfg := by
  rw [Definition.selected, Definition.selected, Definition.selectionMode,
    Definition.selectionMode, h.unreserved]

theorem Catalog.SameUnreserved.find? {cfg : Config} {c c' : Catalog}
    (h : c.SameUnreserved cfg c') (name : String) :
    Option.Rel (Definition.SameUnreserved cfg) (c.find? name) (c'.find? name) :=
  NameTable.find?_related (R := Definition.SameUnreserved cfg) (fun _ _ hd => hd.name) h name

theorem Descriptor.category_sameUnreserved {cfg : Config} {d d' : Descriptor}
    (h : Related (Definition.SameUnreserved cfg) d d') :
    Category.Corresponds SameViews (d.category cfg) (d'.category cfg) := by
  have hdef := h.definition
  refine category_corresponds SameViews.eq_nil_iff (hdef.isString cfg) h.isEmpty_arguments
    (hdef.isEnumerable cfg) fun _ _ => ?_
  rw [hdef.selected]
  exact List.forall₂_same.mpr fun _ _ => ⟨rfl, rfl⟩

namespace Catalog

variable {cfg : Config} {c c' : Catalog}

theorem expansion_sameUnreserved (hc : c.SameUnreserved cfg c') (r : TypeRef) :
    c.expansion cfg r = c'.expansion cfg r :=
  expansion_eq_of_related (Definition.keepsHead_sameUnreserved cfg)
    (fun _ => Descriptor.category_sameUnreserved) (fun _ _ _ _ _ _ _ n _ => hc.find? n)
    fun n _ => hc.find? n

/-- Members of the reserved name never show, neither in a fingerprint nor in
the fault of a type that has none. -/
theorem fingerprint_eq_of_sameUnreserved (hc : c.SameUnreserved cfg c') :
    (∀ name, c.fingerprintOf cfg name = c'.fingerprintOf cfg name) ∧
      (∀ r, c.fingerprint cfg r = c'.fingerprint cfg r) ∧
      ∀ r, c.memberFingerprint cfg r = c'.memberFingerprint cfg r := by
  have hbody (r : TypeRef) : c.fingerprint cfg r = c'.fingerprint cfg r := by
    rw [fingerprint, fingerprint, expansion_sameUnreserved hc]
  refine ⟨fun name => hbody (.named name []), hbody, fun r => ?_⟩
  rw [memberFingerprint, memberFingerprint, expansion_sameUnreserved hc]

/-- A type of one member after some others, and the type of its values. -/
def boxes (others : List Member) : Catalog :=
  ⟨[{ name := "Box", members := others ++ [⟨"Content", .named "Int" [], false, true, true⟩] },
    { name := "Int", members := others }],
    List.pairwise_map.mp (show ["Box", "Int"].Pairwise (· < ·) by decide)⟩

/-- A reserved member that is opted in, out of reach and of no known type. -/
def versionMember : Member := ⟨"Version", .named "None" [.param 7], true, false, false⟩

theorem fingerprint_eq_boxes_reserved :
    (boxes []).SameUnreserved {} (boxes [versionMember]) ∧
      (boxes []).fingerprintOf {} "Box" = (boxes [versionMember]).fingerprintOf {} "Box" := by
  have h : (boxes []).SameUnreserved {} (boxes [versionMember]) :=
    .cons ⟨⟨rfl, rfl, rfl⟩, by decide⟩ (.cons ⟨⟨rfl, rfl, rfl⟩, by decide⟩ .nil)
  exact ⟨h, (fingerprint_eq_of_sameUnreserved h).1 "Box"⟩

end Catalog

end ShapeLedger
