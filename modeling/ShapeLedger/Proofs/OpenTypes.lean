import ShapeLedger.Proofs.PathKey
import ShapeLedger.Proofs.Saturation
import ShapeLedger.Proofs.Visits

/-!
The open types themselves. A path holds only the names and the keys of the
types that are open. A trail is a chain of calls of the walk together with the
types that it opens, so it tells whether a type is open or only has the key of
one that is. Names of types without brackets and commas leave no difference:
then a key stands for one constructed type, and the walk cuts at a type if and
only if this type is open.
-/

namespace ShapeLedger

namespace Visit

/-- A chain of calls that leads the walk of `r` to a visit, and the types that it has opened on
the way, innermost first. -/
inductive Trail (c : Catalog) (cfg : Config) (r : TypeRef) : List Descriptor → Visit → Prop
  | start {d : Descriptor} (value : r.resolve c [] Catalog.entryPoint = .ok d) :
    Trail c cfg r [] ⟨[], d⟩
  | stays {ds : List Descriptor} {x y : Visit} (before : Trail c cfg r ds x)
    (call : x.Calls c cfg y) (same : y.path = x.path) : Trail c cfg r ds y
  | opens {ds : List Descriptor} {x y : Visit} (before : Trail c cfg r ds x)
    (call : x.Calls c cfg y) (pushed : y.path = x.path.push x.type) :
    Trail c cfg r (x.type :: ds) y

variable {c : Catalog} {cfg : Config} {r : TypeRef} {ds : List Descriptor} {x : Visit}

theorem Trail.reached (h : Trail c cfg r ds x) : Reached c cfg r x := by
  induction h with
  | start value => exact ⟨_, value, .refl⟩
  | stays _ call _ ih => exact ih.calls call
  | opens _ call _ ih => exact ih.calls call

theorem Reached.exists_trail (h : Reached c cfg r x) : ∃ ds, Trail c cfg r ds x := by
  refine h.preserves (fun d hd => ⟨[], .start hd⟩) fun x y _ hcall ih => ?_
  obtain ⟨ds, htrail⟩ := ih
  cases hcall with
  | argument free kind mem => exact ⟨ds, .stays htrail (.argument free kind mem) rfl⟩
  | member free kind room mem value =>
    exact ⟨x.type :: ds, .opens htrail (.member free kind room mem value) rfl⟩

/-- The path holds the types that the trail has opened and no others. -/
theorem Trail.path_eq (h : Trail c cfg r ds x) : x.path = .opened ds := by
  induction h with
  | start => rfl
  | stays _ _ same ih => exact same.trans ih
  | @opens ds x y _ _ pushed ih =>
    calc
      y.path = x.path.push x.type := pushed
      _ = Path.push (.opened ds) x.type := by rw [ih]
      _ = .opened (x.type :: ds) := rfl

theorem Trail.from (h : Trail c cfg r ds x) : ∀ o ∈ ds, o.From c := by
  induction h with
  | start => exact List.forall_mem_nil _
  | stays _ _ _ ih => exact ih
  | opens before _ _ ih => exact List.forall_mem_cons.mpr ⟨before.reached.from, ih⟩

theorem Trail.holds_iff (hc : c.TypeNamesAvoid ['[', ']', ',']) (h : Trail c cfg r ds x) :
    x.path.holds x.type.pathKey = true ↔ x.type ∈ ds := by
  rw [h.path_eq]
  exact Descriptor.holds_opened_iff_mem hc h.from h.reached.from

end Visit

/-- A type is only named if its key is on the path or if it is a leaf. -/
theorem Descriptor.expand_eq_bare_iff {c : Catalog} {cfg : Config} {path : Path} {d : Descriptor}
    (hd : d.From c) : d.expand c cfg path hd = .ok (.bare d.fullName) ↔
      path.holds d.pathKey = true ∨ d.category cfg = .leaf := by
  constructor
  · intro h
    exact Expands.held_or_leaf ⟨hd, h⟩
  · intro h
    rw [expand_eq_ok_iff]
    cases hheld : path.holds d.pathKey with
    | true => exact .held hheld
    | false =>
      rw [hheld] at h
      exact .leaf hheld (h.resolve_left Bool.false_ne_true)

/-- Keys stand for types, so what the walk takes for open is open. -/
structure Catalog.CutsOpenTypes (c : Catalog) : Prop where
  keys : ∀ d d' : Descriptor, d.Constructed c → d'.Constructed c →
    (d.pathKey = d'.pathKey ↔ d = d')
  /-- Every path of the walk is that of a trail, and a trail ends at a visit of the walk. -/
  trails : ∀ (cfg : Config) (r : TypeRef) (x : Visit),
    x.Reached c cfg r ↔ ∃ ds, Visit.Trail c cfg r ds x
  opened : ∀ (cfg : Config) (r : TypeRef) (ds : List Descriptor) (x : Visit),
    Visit.Trail c cfg r ds x → x.path = .opened ds
  cut : ∀ (cfg : Config) (r : TypeRef) (ds : List Descriptor) (x : Visit),
    Visit.Trail c cfg r ds x → (x.path.holds x.type.pathKey = true ↔ x.type ∈ ds)
  /-- Of a type that is no leaf nothing but the name is left if and only if the type is open. -/
  named : ∀ (cfg : Config) (r : TypeRef) (ds : List Descriptor) (x : Visit),
    Visit.Trail c cfg r ds x → x.type.category cfg ≠ .leaf → ∀ hx : x.type.From c,
      (x.type.expand c cfg x.path hx = .ok (.bare x.type.fullName) ↔ x.type ∈ ds)

theorem Catalog.cutsOpenTypes {c : Catalog} (hc : c.TypeNamesAvoid ['[', ']', ',']) :
    c.CutsOpenTypes where
  keys d d' hd hd' := ⟨Descriptor.pathKey_inj hc hd.from hd'.from, congrArg Descriptor.pathKey⟩
  trails _ _ _ := ⟨Visit.Reached.exists_trail, fun ⟨_, h⟩ => h.reached⟩
  opened _ _ _ _ h := h.path_eq
  cut _ _ _ _ h := h.holds_iff hc
  named cfg r ds x h hkind hx := by
    rw [Descriptor.expand_eq_bare_iff, ← h.holds_iff hc]
    exact or_iff_left hkind

namespace Catalog

def boxDefinition : Definition :=
  { name := "Box", genericArity := 1, members := [⟨"Content", .param 0, false, true, true⟩,
      ⟨"Next", .named "Box" [.param 0], false, true, true⟩] }

/-- A type whose name is the full name of every box. -/
def markedDefinition : Definition :=
  { name := "Box`1", members := [⟨"Value", .named "Byte" [], false, true, true⟩] }

def markedBoxes : Catalog :=
  ⟨[boxDefinition, markedDefinition, { name := "Byte" }],
    List.pairwise_map.mp (show ["Box", "Box`1", "Byte"].Pairwise (· < ·) by decide)⟩

/-- In a box of the marked type the next box is cut, since it is of the type that is open. The
content is of another type and is not cut, though no full names tell the two apart. -/
theorem cut_in_markedBoxes :
    markedBoxes.TypeNamesAvoid ['[', ']', ','] ∧
      ∃ content box : Descriptor, content.fullName = box.fullName ∧
        ∃ hcontent hbox,
          box.expand markedBoxes {} (.opened [box]) hbox = .ok (.bare box.fullName) ∧
          content.expand markedBoxes {} (.opened [box]) hcontent ≠
            .ok (.bare content.fullName) := by
  let content : Descriptor := ⟨markedDefinition, []⟩
  let box : Descriptor := ⟨boxDefinition, [content]⟩
  have hc : markedBoxes.TypeNamesAvoid ['[', ']', ','] := by decide
  have hcontent : content.From markedBoxes := .intro rfl (List.forall_mem_nil _)
  have hbox : box.From markedBoxes := .intro rfl (by simpa [box] using hcontent)
  have htrail {m : Member} (hmem : m ∈ boxDefinition.members) {v : Descriptor}
      (hv : box.memberType markedBoxes m = .ok v) :
      Visit.Trail markedBoxes {} (.named "Box" [.named "Box`1" []]) [box] ⟨.opened [box], v⟩ := by
    have hstart : Visit.Trail markedBoxes {} (.named "Box" [.named "Box`1" []]) [] ⟨[], box⟩ :=
      .start rfl
    have hkind : box.category {} = .composite .implicit boxDefinition.members := by decide
    exact .opens hstart (.member rfl hkind (by decide) hmem hv) rfl
  have hcontentTrail := htrail (v := content) List.mem_cons_self rfl
  have hboxTrail := htrail (v := box) (List.mem_cons_of_mem _ List.mem_cons_self) rfl
  have hcut := cutsOpenTypes hc
  have hname : content.fullName = box.fullName := by decide
  refine ⟨hc, content, box, hname, hcontent, hbox, ?_, fun hbare => ?_⟩
  · exact (hcut.named _ _ _ _ hboxTrail (by decide) hbox).mpr List.mem_cons_self
  · have hopen := (hcut.named _ _ _ _ hcontentTrail (by decide) hcontent).mp hbare
    have hsame : content.pathKey = box.pathKey := congrArg _ (List.mem_singleton.mp hopen)
    revert hsame
    decide

end Catalog

end ShapeLedger
