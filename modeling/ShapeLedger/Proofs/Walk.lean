import ShapeLedger.Fingerprint
import ShapeLedger.Proofs.Pairing

/-!
The walk from outside. What a constructed type expands to is read off one step:
it is open already, or a leaf, or a collection whose arguments expand on the
same path, or a composite whose selected members expand on the path that it
extends. Facts about every outcome of the walk, faults included, follow by
induction over the types it visits.
-/

namespace ShapeLedger

/-- Two results that are the same fault, or two values related by `Q`. -/
inductive Agree {ε α β : Type} (Q : α → β → Prop) : Except ε α → Except ε β → Prop
  | error (e : ε) : Agree Q (.error e) (.error e)
  | ok {a : α} {b : β} (h : Q a b) : Agree Q (.ok a) (.ok b)

theorem Agree.mono {ε α β : Type} {Q Q' : α → β → Prop} {x : Except ε α} {y : Except ε β}
    (h : Agree Q x y) (hQ : ∀ a b, x = .ok a → y = .ok b → Q a b → Q' a b) : Agree Q' x y := by
  cases h with
  | error e => exact .error e
  | ok hab => exact .ok (hQ _ _ rfl rfl hab)

/-- The same result, unless the first one is a fault of the kind `F`. -/
inductive UpTo {ε α : Type} (F : ε → Prop) : Except ε α → Except ε α → Prop
  | same (x : Except ε α) : UpTo F x x
  | fault {e : ε} (h : F e) (y : Except ε α) : UpTo F (.error e) y

theorem UpTo.map {ε α β : Type} {F : ε → Prop} {x y : Except ε α} (h : UpTo F x y) (f : α → β) :
    UpTo F (x.map f) (y.map f) := by
  cases h with
  | same => exact .same _
  | fault he => exact .fault he _

theorem UpTo.eq_ok {ε α : Type} {F : ε → Prop} {x y : Except ε α} {a : α} (h : UpTo F x y)
    (hx : x = .ok a) : y = .ok a := by
  cases h with
  | same => exact hx
  | fault => cases hx

theorem UpTo.eq {ε α : Type} {x y : Except ε α} (h : UpTo (fun _ => False) x y) : x = y := by
  cases h with
  | same => rfl
  | fault he => exact he.elim

/-- The path on which the types `ds` are open, innermost first. -/
def Path.opened (ds : List Descriptor) : Path := ds.map fun d => ⟨d.name, d.pathKey⟩

theorem Path.holds_iff {path : Path} {key : String} :
    path.holds key = true ↔ key ∈ path.map OpenType.key := by
  rw [holds, List.any_eq_true, List.mem_map]
  simp

theorem Path.holds_eq_false_iff {path : Path} {key : String} :
    path.holds key = false ↔ key ∉ path.map OpenType.key := by
  rw [← holds_iff, Bool.not_eq_true]

theorem Path.holds_opened_iff {ds : List Descriptor} {key : String} :
    (opened ds).holds key = true ↔ key ∈ ds.map Descriptor.pathKey := by
  rw [holds_iff, opened, List.map_map]
  rfl

namespace Descriptor

variable {c c' : Catalog} {cfg cfg' : Config} {path path' : Path}

/-- The constructed type of the values of a member of `owner`. -/
def memberType (c : Catalog) (owner : Descriptor) (m : Member) : Except ShapeError Descriptor :=
  m.valueType.resolve c owner.arguments (owner.fullName ++ "." ++ m.name)

theorem from_of_memberType {owner v : Descriptor} {m : Member} (howner : owner.From c)
    (h : owner.memberType c m = .ok v) : v.From c :=
  TypeRef.from_of_resolve howner.arguments h

/-- The type `d` expands to the tree `e` below the open types of `path`. -/
def Expands (c : Catalog) (cfg : Config) (path : Path) (d : Descriptor) (e : Expansion) : Prop :=
  ∃ hd : d.From c, d.expand c cfg path hd = .ok e

def MemberExpands (c : Catalog) (cfg : Config) (path : Path) (owner : Descriptor) (m : Member)
    (x : String × Expansion) : Prop :=
  m.name = x.1 ∧ ∃ v, owner.memberType c m = .ok v ∧ v.Expands c cfg path x.2

/-- `From` is a proposition, so a type from the catalog expands in one way. -/
theorem expands_iff_expand_eq {d : Descriptor} (hd : d.From c) {e : Expansion} :
    d.Expands c cfg path e ↔ d.expand c cfg path hd = .ok e :=
  ⟨fun ⟨_, h⟩ => h, fun h => ⟨hd, h⟩⟩

/-! ### How a type is treated -/

theorem arguments_ne_nil_of_category {d : Descriptor} (h : d.category cfg = .collection) :
    d.arguments ≠ [] := by
  rw [category] at h
  split at h
  · cases h
  · rename_i hc
    intro hnil
    simp [hnil] at hc
  · split at h <;> cases h

theorem members_of_category {d : Descriptor} {mode : SelectionMode} {ms : List Member}
    (h : d.category cfg = .composite mode ms) : ms = d.definition.selected cfg ∧ ms ≠ [] := by
  rw [category] at h
  split at h
  · cases h
  · cases h
  · split at h
    · cases h
    · rename_i hms
      cases h
      exact ⟨hms.symm, List.cons_ne_nil _ _⟩

/-! ### The lists of the walk -/

theorem expandAll_eq_ok_iff {ds : List Descriptor} (hds : ∀ d ∈ ds, d.From c)
    {es : List Expansion} :
    expandAll c cfg path ds hds = .ok es ↔ List.Forall₂ (Expands c cfg path) ds es := by
  induction ds generalizing es with
  | nil =>
    rw [expandAll]
    simp [eq_comm]
  | cons d ds ih =>
    have hhead (e : Expansion) : d.Expands c cfg path e ↔
        d.expand c cfg path (hds d List.mem_cons_self) = .ok e := expands_iff_expand_eq _
    rw [expandAll, List.forall₂_cons_left_iff]
    cases h : d.expand c cfg path (hds d List.mem_cons_self) with
    | error err => simp [hhead, h]
    | ok e =>
      simp only [hhead, h, Except.ok.injEq, map_eq_ok_iff, ih]
      constructor
      · rintro ⟨es', htail, rfl⟩
        exact ⟨e, es', rfl, htail, rfl⟩
      · rintro ⟨_, es', rfl, htail, rfl⟩
        exact ⟨es', htail, rfl⟩

theorem memberExpands_iff {owner v : Descriptor} {m : Member} (hv : owner.memberType c m = .ok v)
    {x : String × Expansion} :
    MemberExpands c cfg path owner m x ↔ m.name = x.1 ∧ v.Expands c cfg path x.2 := by
  simp [MemberExpands, hv]

theorem expandMembers_cons_of_error {owner : Descriptor} (howner : owner.From c) {m : Member}
    {err : ShapeError} (h : owner.memberType c m = .error err) (ms : List Member) :
    expandMembers c cfg path owner howner (m :: ms) = .error err := by
  rw [expandMembers]
  split
  · rename_i herr
    cases herr.symm.trans h
    rfl
  · rename_i hv
    cases hv.symm.trans h

theorem expandMembers_cons_of_ok {owner v : Descriptor} (howner : owner.From c) {m : Member}
    (h : owner.memberType c m = .ok v) (ms : List Member) :
    expandMembers c cfg path owner howner (m :: ms) =
      match v.expand c cfg path (from_of_memberType howner h) with
      | .error e => .error e
      | .ok e => (expandMembers c cfg path owner howner ms).map ((m.name, e) :: ·) := by
  rw [expandMembers]
  split
  · rename_i herr
    cases herr.symm.trans h
  · rename_i hv
    cases hv.symm.trans h
    rfl

theorem expandMembers_eq_ok_iff {owner : Descriptor} (howner : owner.From c) {ms : List Member}
    {xs : List (String × Expansion)} :
    expandMembers c cfg path owner howner ms = .ok xs ↔
      List.Forall₂ (MemberExpands c cfg path owner) ms xs := by
  induction ms generalizing xs with
  | nil =>
    rw [expandMembers]
    simp [eq_comm]
  | cons m ms ih =>
    rw [List.forall₂_cons_left_iff]
    cases hv : owner.memberType c m with
    | error err => simp [expandMembers_cons_of_error howner hv, MemberExpands, hv]
    | ok v =>
      rw [expandMembers_cons_of_ok howner hv]
      simp only [memberExpands_iff hv, expands_iff_expand_eq (from_of_memberType howner hv)]
      cases h : v.expand c cfg path (from_of_memberType howner hv) with
      | error err => simp
      | ok e =>
        simp only [Except.ok.injEq, map_eq_ok_iff, ih]
        constructor
        · rintro ⟨xs', htail, rfl⟩
          exact ⟨_, xs', ⟨rfl, rfl⟩, htail, rfl⟩
        · rintro ⟨⟨_, _⟩, xs', ⟨rfl, rfl⟩, htail, rfl⟩
          exact ⟨xs', htail, rfl⟩

/-! ### One step of the walk -/

/-- What `d` expands to below `path`, by how the walk treats it. -/
inductive Expanded (c : Catalog) (cfg : Config) (path : Path) (d : Descriptor) : Expansion → Prop
  | held (held : path.holds d.pathKey = true) : Expanded c cfg path d (.bare d.fullName)
  | leaf (free : path.holds d.pathKey = false) (kind : d.category cfg = .leaf) :
    Expanded c cfg path d (.bare d.fullName)
  | collection (free : path.holds d.pathKey = false) (kind : d.category cfg = .collection)
    {es : List Expansion} (arguments : List.Forall₂ (Expands c cfg path) d.arguments es) :
    Expanded c cfg path d (.collection d.fullName es)
  | composite (free : path.holds d.pathKey = false) {mode : SelectionMode} {ms : List Member}
    (kind : d.category cfg = .composite mode ms)
    (room : path.expansions d.name < cfg.maxGenericNesting) {xs : List (String × Expansion)}
    (members : List.Forall₂ (MemberExpands c cfg (path.push d) d) ms xs) :
    Expanded c cfg path d (.composite d.fullName xs)

theorem expand_eq_ok_iff {d : Descriptor} (hd : d.From c) {e : Expansion} :
    d.expand c cfg path hd = .ok e ↔ Expanded c cfg path d e := by
  rw [expand]
  constructor
  · intro h
    split at h
    · cases h
      exact .held ‹_›
    · cases h
      exact .leaf ‹_› ‹_›
    · obtain ⟨es, hes, rfl⟩ := map_eq_ok_iff.mp h
      exact .collection ‹_› ‹_› ((expandAll_eq_ok_iff hd.arguments).mp hes)
    · split at h
      · obtain ⟨xs, hxs, rfl⟩ := map_eq_ok_iff.mp h
        exact .composite ‹_› ‹_› ‹_› ((expandMembers_eq_ok_iff hd).mp hxs)
      · cases h
  · intro h
    cases h with
    | held held => simp [held]
    | leaf free kind => simp [free, kind]
    | collection free kind arguments =>
      simp only [free, kind]
      exact map_eq_ok_iff.mpr ⟨_, (expandAll_eq_ok_iff hd.arguments).mpr arguments, rfl⟩
    | composite free kind room members =>
      simp only [free, kind, room, if_true]
      exact map_eq_ok_iff.mpr ⟨_, (expandMembers_eq_ok_iff hd).mpr members, rfl⟩

theorem expands_iff {d : Descriptor} {e : Expansion} :
    d.Expands c cfg path e ↔ d.From c ∧ Expanded c cfg path d e :=
  ⟨fun ⟨hd, h⟩ => ⟨hd, (expand_eq_ok_iff hd).mp h⟩,
    fun ⟨hd, h⟩ => ⟨hd, (expand_eq_ok_iff hd).mpr h⟩⟩

/-! ### What a tree says about its type -/

section

variable {d : Descriptor}

theorem Expands.from {e : Expansion} (h : d.Expands c cfg path e) : d.From c := h.1

theorem Expands.members {n : String} {xs : List (String × Expansion)}
    (h : d.Expands c cfg path (.composite n xs)) :
    ∃ mode ms, d.category cfg = .composite mode ms ∧
      List.Forall₂ (MemberExpands c cfg (path.push d) d) ms xs := by
  obtain ⟨-, step⟩ := expands_iff.mp h
  cases step with
  | composite free kind room members => exact ⟨_, _, kind, members⟩

theorem Expands.arguments {n : String} {es : List Expansion}
    (h : d.Expands c cfg path (.collection n es)) :
    d.category cfg = .collection ∧ List.Forall₂ (Expands c cfg path) d.arguments es := by
  obtain ⟨-, step⟩ := expands_iff.mp h
  cases step with
  | collection free kind arguments => exact ⟨kind, arguments⟩

theorem Expands.held_or_leaf {n : String} (h : d.Expands c cfg path (.bare n)) :
    path.holds d.pathKey = true ∨ d.category cfg = .leaf := by
  obtain ⟨-, step⟩ := expands_iff.mp h
  cases step with
  | held held => exact .inl held
  | leaf free kind => exact .inr kind

theorem Expands.bare_or_composite {e : Expansion} (hargs : d.arguments = [])
    (h : d.Expands c cfg path e) :
    e = .bare d.fullName ∨ ∃ xs, xs ≠ [] ∧ e = .composite d.fullName xs := by
  obtain ⟨-, step⟩ := expands_iff.mp h
  cases step with
  | held held => exact .inl rfl
  | leaf free kind => exact .inl rfl
  | collection free kind => exact absurd hargs (arguments_ne_nil_of_category kind)
  | composite free kind room members =>
    refine .inr ⟨_, ?_, rfl⟩
    rintro rfl
    exact (members_of_category kind).2 (List.forall₂_nil_right_iff.mp members)

end

/-! ### Paths of open types -/

section

variable {d : Descriptor} {ds : List Descriptor} {n : String}

theorem From.expands_of_mem (hd : d.From c) (hname : d.fullName = n) (h : d ∈ ds) :
    d.Expands c cfg (.opened ds) (.bare n) := by
  subst hname
  exact expands_iff.mpr ⟨hd, .held (Path.holds_opened_iff.mpr (List.mem_map_of_mem h))⟩

theorem From.expands_of_members (hd : d.From c) (hname : d.fullName = n)
    (free : (Path.opened ds).holds d.pathKey = false) {mode : SelectionMode} {ms : List Member}
    (kind : d.category cfg = .composite mode ms)
    (room : (Path.opened ds).expansions d.name < cfg.maxGenericNesting)
    {xs : List (String × Expansion)}
    (members : List.Forall₂ (MemberExpands c cfg (.opened (d :: ds)) d) ms xs) :
    d.Expands c cfg (.opened ds) (.composite n xs) :=
  hname ▸ expands_iff.mpr ⟨hd, .composite free kind room members⟩

end

/-! ### Every outcome of the walk -/

/-- Induction over the types that the walk of `d` visits: the arguments of `d`
on the same path, and the value types of its members on the path it extends. -/
@[elab_as_elim] theorem walkInduction (cfg : Config) {P : Path → Descriptor → Prop}
    (step : ∀ path d, d.From c → (∀ a ∈ d.arguments, P path a) →
      (path.expansions d.name < cfg.maxGenericNesting →
        ∀ m v, d.memberType c m = .ok v → P (path.push d) v) → P path d)
    (path : Path) (d : Descriptor) (hd : d.From c) : P path d :=
  step path d hd (fun a ha => walkInduction cfg step path a (hd.arguments a ha))
    fun _ _ v hv => walkInduction cfg step (path.push d) v (from_of_memberType hd hv)
termination_by (path.room cfg.maxGenericNesting c.names, sizeOf d)
decreasing_by
  -- An argument is smaller on the same path, a member is visited with less room.
  · refine Prod.Lex.right _ ?_
    have := List.sizeOf_lt_of_mem ‹a ∈ d.arguments›
    cases d
    simp only [Descriptor.mk.sizeOf_spec] at *
    omega
  · exact Prod.Lex.left _ _ (Path.room_push_lt (NameTable.mem_names_of_find? hd.listed) ‹_›)

/-- Lists of types expand alike up to a kind of fault if their items do: what stops the first
walk stops it before the two can differ. -/
theorem expandAll_upTo {F : ShapeError → Prop} {ds ds' : List Descriptor}
    (hds : ∀ d ∈ ds, d.From c) (hds' : ∀ d ∈ ds', d.From c')
    (h : List.Forall₂ (fun d d' => ∀ hd hd',
      UpTo F (d.expand c cfg path hd) (d'.expand c' cfg' path' hd')) ds ds') :
    UpTo F (expandAll c cfg path ds hds) (expandAll c' cfg' path' ds' hds') := by
  induction h with
  | nil =>
    rw [expandAll, expandAll]
    exact .same _
  | @cons d d' _ _ hhead _ ih =>
    have hd := hhead (hds d List.mem_cons_self) (hds' d' List.mem_cons_self)
    rw [expandAll, expandAll]
    generalize d.expand c cfg path _ = x at hd ⊢
    generalize d'.expand c' cfg' path' _ = x' at hd ⊢
    cases hd with
    | fault he => exact .fault he _
    | same =>
      cases x with
      | error e => exact .same _
      | ok e => exact (ih _ _).map _

theorem expandMembers_upTo {F : ShapeError → Prop} {owner owner' : Descriptor}
    (howner : owner.From c) (howner' : owner'.From c') {ms ms' : List Member}
    (h : List.Forall₂ (fun m m' => m.name = m'.name ∧
      Agree (fun v v' => ∀ hv hv', UpTo F (v.expand c cfg path hv) (v'.expand c' cfg' path' hv'))
        (owner.memberType c m) (owner'.memberType c' m')) ms ms') :
    UpTo F (expandMembers c cfg path owner howner ms)
      (expandMembers c' cfg' path' owner' howner' ms') := by
  induction h with
  | nil =>
    rw [expandMembers, expandMembers]
    exact .same _
  | @cons m m' _ _ hhead _ ih =>
    obtain ⟨hname, hagree⟩ := hhead
    generalize hv : owner.memberType c m = r at hagree
    generalize hv' : owner'.memberType c' m' = r' at hagree
    cases hagree with
    | error err =>
      rw [expandMembers_cons_of_error howner hv, expandMembers_cons_of_error howner' hv']
      exact .same _
    | @ok v v' hexpand =>
      have hvalue := hexpand (from_of_memberType howner hv) (from_of_memberType howner' hv')
      rw [expandMembers_cons_of_ok howner hv, expandMembers_cons_of_ok howner' hv', hname]
      generalize v.expand c cfg path _ = x at hvalue ⊢
      generalize v'.expand c' cfg' path' _ = x' at hvalue ⊢
      cases hvalue with
      | fault he => exact .fault he _
      | same =>
        cases x with
        | error e => exact .same _
        | ok e => exact ih.map _

theorem expandAll_congr {ds ds' : List Descriptor} (hds : ∀ d ∈ ds, d.From c)
    (hds' : ∀ d ∈ ds', d.From c')
    (h : List.Forall₂ (fun d d' => ∀ hd hd',
      d.expand c cfg path hd = d'.expand c' cfg' path' hd') ds ds') :
    expandAll c cfg path ds hds = expandAll c' cfg' path' ds' hds' :=
  (expandAll_upTo hds hds' (h.imp fun _ _ heq hd hd' => heq hd hd' ▸ .same _)).eq

theorem expandMembers_congr {owner owner' : Descriptor} (howner : owner.From c)
    (howner' : owner'.From c') {ms ms' : List Member}
    (h : List.Forall₂ (fun m m' => m.name = m'.name ∧
      Agree (fun v v' => ∀ hv hv', v.expand c cfg path hv = v'.expand c' cfg' path' hv')
        (owner.memberType c m) (owner'.memberType c' m')) ms ms') :
    expandMembers c cfg path owner howner ms =
      expandMembers c' cfg' path' owner' howner' ms' :=
  (expandMembers_upTo howner howner' (h.imp fun _ _ hm => ⟨hm.1, hm.2.mono
    fun _ _ _ _ heq hv hv' => heq hv hv' ▸ .same _⟩)).eq

/-- One step of two walks of the same type, which may differ in what is open and in the settings:
either both cut here or none, and the first one opens the type only if the second one does. -/
theorem expand_upTo {F : ShapeError → Prop} {d : Descriptor} (hd : d.From c)
    (held : path.holds d.pathKey = path'.holds d.pathKey)
    (kind : d.category cfg = d.category cfg')
    (arguments : d.category cfg = .collection → ∀ a ∈ d.arguments, ∀ ha,
      UpTo F (a.expand c cfg path ha) (a.expand c cfg' path' ha))
    (room : path.expansions d.name < cfg.maxGenericNesting →
      path'.expansions d.name < cfg'.maxGenericNesting ∧
        ∀ mode ms, d.category cfg = .composite mode ms →
          ∀ m ∈ ms, ∀ v, d.memberType c m = .ok v → ∀ hv,
            UpTo F (v.expand c cfg (path.push d) hv) (v.expand c cfg' (path'.push d) hv))
    (full : ¬path.expansions d.name < cfg.maxGenericNesting →
      F (.depthLimitExceeded d.fullName cfg.maxGenericNesting) ∨
        ¬path'.expansions d.name < cfg'.maxGenericNesting ∧
          cfg.maxGenericNesting = cfg'.maxGenericNesting) :
    UpTo F (d.expand c cfg path hd) (d.expand c cfg' path' hd) := by
  rw [expand, expand, ← held, ← kind]
  cases path.holds d.pathKey with
  | true => exact .same _
  | false =>
    generalize d.category cfg = k at arguments room ⊢
    cases k with
    | leaf => exact .same _
    | collection =>
      have hall := expandAll_upTo hd.arguments hd.arguments
        (List.forall₂_same.mpr fun a ha hfrom _ => arguments rfl a ha hfrom)
      exact hall.map _
    | composite mode ms =>
      by_cases hroom : path.expansions d.name < cfg.maxGenericNesting
      · obtain ⟨hroom', members⟩ := room hroom
        have hall : UpTo F (expandMembers c cfg (path.push d) d hd ms)
            (expandMembers c cfg' (path'.push d) d hd ms) := by
          refine expandMembers_upTo hd hd (List.forall₂_same.mpr fun m hm => ⟨rfl, ?_⟩)
          cases hv : d.memberType c m with
          | error err => exact .error err
          | ok v => exact .ok fun hfrom _ => members mode ms rfl m hm v hv hfrom
        simp only [hroom, hroom', if_true]
        exact hall.map _
      · simp only [hroom, if_false]
        rcases full hroom with hfault | ⟨hfull, hlimit⟩
        · exact .fault hfault _
        · rw [if_neg hfull, hlimit]
          exact .same _

end Descriptor

namespace Catalog

variable {c : Catalog} {cfg : Config} {path : Path} {place : String} {r : TypeRef} {d : Descriptor}

/-- What a reference that stands in no type expands to below the open types of `path`. -/
def expansionBelow (c : Catalog) (cfg : Config) (path : Path) (place : String) (r : TypeRef) :
    Except ShapeError Expansion :=
  match h : r.resolve c [] place with
  | .error e => .error e
  | .ok d => d.expand c cfg path (TypeRef.from_of_resolve (List.forall_mem_nil _) h)

theorem expansionBelow_of_error {err : ShapeError} (h : r.resolve c [] place = .error err) :
    c.expansionBelow cfg path place r = .error err := by
  rw [expansionBelow]
  split
  · rename_i herr
    cases herr.symm.trans h
    rfl
  · rename_i hd
    cases hd.symm.trans h

theorem expansionBelow_of_ok (h : r.resolve c [] place = .ok d) (hd : d.From c) :
    c.expansionBelow cfg path place r = d.expand c cfg path hd := by
  rw [expansionBelow]
  split
  · rename_i herr
    cases herr.symm.trans h
  · rename_i hd'
    cases hd'.symm.trans h
    rfl

/-- With nothing open, at the entry point, it is the expansion. -/
theorem expansionBelow_entryPoint :
    c.expansionBelow cfg [] entryPoint r = c.expansion cfg r := rfl

theorem expansion_of_error {err : ShapeError} (h : r.resolve c [] entryPoint = .error err)
    (cfg : Config) : c.expansion cfg r = .error err :=
  expansionBelow_of_error h

theorem expansion_of_ok (h : r.resolve c [] entryPoint = .ok d) (cfg : Config) :
    c.expansion cfg r = d.expand c cfg [] (TypeRef.from_of_resolve (by simp) h) :=
  expansionBelow_of_ok h _

theorem expansion_eq_ok_iff {e : Expansion} :
    c.expansion cfg r = .ok e ↔ ∃ d, r.resolve c [] entryPoint = .ok d ∧ d.Expands c cfg [] e := by
  cases hd : r.resolve c [] entryPoint with
  | error err => simp [expansion_of_error hd]
  | ok d =>
    simp [expansion_of_ok hd,
      Descriptor.expands_iff_expand_eq (TypeRef.from_of_resolve (by simp) hd)]

end Catalog

end ShapeLedger
