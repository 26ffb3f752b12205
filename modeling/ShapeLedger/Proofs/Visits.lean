import Mathlib.Logic.Relation
import ShapeLedger.Proofs.Walk

/-!
The calls of the walk. A visit looks at one type below those that are open. For
a collection the walk goes on to its arguments below the same open types, for a
composite it opens the type and goes on to the values of its members. A type is
opened under a new key and only while its definition has room left, so every
chain of calls ends, whatever the catalog and the limit are, and the equations
of the walk have one solution.
-/

namespace ShapeLedger

open Relation (ReflTransGen)

/-- A type that the walk looks at, and the types that are open there. -/
structure Visit where
  path : Path
  type : Descriptor

namespace Descriptor

/-- `d` stands in the tree of arguments of `v`, or is `v` itself. -/
def Within (v d : Descriptor) : Prop := ReflTransGen (fun d a => a ∈ d.arguments) v d

end Descriptor

namespace Visit

/-- What one visit makes of the answers to the visits that it calls for. -/
def step (c : Catalog) (cfg : Config) (answer : Visit → Except ShapeError Expansion) (x : Visit) :
    Except ShapeError Expansion :=
  match x.path.holds x.type.pathKey, x.type.category cfg with
  | true, _ => .ok (.bare x.type.fullName)
  | false, .leaf => .ok (.bare x.type.fullName)
  | false, .collection =>
    (x.type.arguments.mapM fun a => answer ⟨x.path, a⟩).map (.collection x.type.fullName)
  | false, .composite _ members =>
    if x.path.expansions x.type.name < cfg.maxGenericNesting then
      (members.mapM fun m => do
        let v ← x.type.memberType c m
        let e ← answer ⟨x.path.push x.type, v⟩
        return (m.name, e)).map (.composite x.type.fullName)
    else .error (.depthLimitExceeded x.type.fullName cfg.maxGenericNesting)

/-- The visits that a visit calls for, if none before them fails. -/
inductive Calls (c : Catalog) (cfg : Config) (x : Visit) : Visit → Prop
  | argument (free : x.path.holds x.type.pathKey = false)
    (kind : x.type.category cfg = .collection) {a : Descriptor} (mem : a ∈ x.type.arguments) :
    Calls c cfg x ⟨x.path, a⟩
  | member (free : x.path.holds x.type.pathKey = false) {mode : SelectionMode} {ms : List Member}
    (kind : x.type.category cfg = .composite mode ms)
    (room : x.path.expansions x.type.name < cfg.maxGenericNesting) {m : Member} (mem : m ∈ ms)
    {v : Descriptor} (value : x.type.memberType c m = .ok v) :
    Calls c cfg x ⟨x.path.push x.type, v⟩

/-- The visits of the walk of the reference `r`. -/
def Reached (c : Catalog) (cfg : Config) (r : TypeRef) (x : Visit) : Prop :=
  ∃ d, r.resolve c [] Catalog.entryPoint = .ok d ∧ ReflTransGen (Calls c cfg) ⟨[], d⟩ x

/-- Where the walk of `r` comes to the type `v` by resolving: at its start, or for a member of
the type that is opened last on `path`. -/
inductive Resolved (c : Catalog) (cfg : Config) (r : TypeRef) : Path → Descriptor → Prop
  | start {v : Descriptor} (value : r.resolve c [] Catalog.entryPoint = .ok v) :
    Resolved c cfg r [] v
  | member {x : Visit} (reached : Reached c cfg r x) {mode : SelectionMode} {ms : List Member}
    (kind : x.type.category cfg = .composite mode ms) {m : Member} (mem : m ∈ ms)
    {v : Descriptor} (value : x.type.memberType c m = .ok v) :
    Resolved c cfg r (x.path.push x.type) v

variable {c : Catalog} {cfg : Config} {r : TypeRef} {x y : Visit}

theorem Calls.from (h : x.Calls c cfg y) (hx : x.type.From c) : y.type.From c := by
  cases h with
  | argument free kind mem => exact hx.arguments _ mem
  | member free kind room mem value => exact Descriptor.from_of_memberType hx value

/-- What every call preserves holds at every visit, if it holds at the start. -/
@[elab_as_elim] theorem Reached.preserves {P : Visit → Prop} (h : Reached c cfg r x)
    (start : ∀ d, r.resolve c [] Catalog.entryPoint = .ok d → P ⟨[], d⟩)
    (call : ∀ x y, Reached c cfg r x → x.Calls c cfg y → P x → P y) : P x := by
  obtain ⟨d, hd, hreach⟩ := h
  induction hreach with
  | refl => exact start d hd
  | tail hbefore hcall ih => exact call _ _ ⟨d, hd, hbefore⟩ hcall ih

theorem Reached.calls (h : Reached c cfg r x) (hcall : x.Calls c cfg y) : Reached c cfg r y := by
  obtain ⟨d, hd, hreach⟩ := h
  exact ⟨d, hd, hreach.tail hcall⟩

theorem Reached.from (h : Reached c cfg r x) : x.type.From c :=
  h.preserves (fun _ hd => TypeRef.from_of_resolve (by simp) hd) fun _ _ _ hcall hx => hcall.from hx

/-! ### Chains of calls -/

/-- Induction along the calls: a visit has a property if all visits that it calls for have it. -/
theorem callInduction (cfg : Config) {P : Visit → Prop} (call : ∀ x : Visit, x.type.From c →
    (∀ y, x.Calls c cfg y → P y) → P x) (hx : x.type.From c) : P x := by
  obtain ⟨path, d⟩ := x
  refine Descriptor.walkInduction (P := fun path d => P ⟨path, d⟩) cfg
    (fun path d hd arguments members => call ⟨path, d⟩ hd fun y hcall => ?_) path d hx
  cases hcall with
  | argument free kind mem => exact arguments _ mem
  | member free kind room mem value => exact members room _ _ value

theorem Reached.acc (h : Reached c cfg r x) : Acc (fun y x => x.Calls c cfg y) x :=
  callInduction cfg (P := Acc _) (fun x _ ih => Acc.intro x ih) h.from

/-! ### One solution -/

theorem mapM_eq_expandAll {α : Type} {path : Path} {answer : α → Except ShapeError Expansion}
    {ds : List Descriptor} {as : List α} (hds : ∀ d ∈ ds, d.From c)
    (h : List.Forall₂ (fun d a => ∀ hd, answer a = d.expand c cfg path hd) ds as) :
    as.mapM answer = Descriptor.expandAll c cfg path ds hds := by
  induction h with
  | nil =>
    rw [Descriptor.expandAll]
    rfl
  | @cons d a ds as hhead _ ih =>
    rw [List.mapM_cons, Descriptor.expandAll, hhead (hds d List.mem_cons_self),
      ih fun x hx => hds x (List.mem_cons_of_mem _ hx)]
    cases d.expand c cfg path (hds d List.mem_cons_self) with
    | error err => rfl
    | ok e => cases Descriptor.expandAll c cfg path ds _ <;> rfl

theorem mapM_eq_expandMembers {path : Path} {owner : Descriptor} (howner : owner.From c)
    {answer : Member → Except ShapeError (String × Expansion)} {ms : List Member}
    (fault : ∀ m ∈ ms, ∀ err, owner.memberType c m = .error err → answer m = .error err)
    (value : ∀ m ∈ ms, ∀ v, owner.memberType c m = .ok v → ∀ hv,
      answer m = (v.expand c cfg path hv).map (m.name, ·)) :
    ms.mapM answer = Descriptor.expandMembers c cfg path owner howner ms := by
  induction ms with
  | nil =>
    rw [Descriptor.expandMembers]
    rfl
  | cons m ms ih =>
    obtain ⟨hfault, hfaults⟩ := List.forall_mem_cons.mp fault
    obtain ⟨hvalue, hvalues⟩ := List.forall_mem_cons.mp value
    rw [List.mapM_cons, ih hfaults hvalues]
    cases hv : owner.memberType c m with
    | error err =>
      rw [Descriptor.expandMembers_cons_of_error howner hv, hfault err hv]
      rfl
    | ok v =>
      have hfrom := Descriptor.from_of_memberType howner hv
      rw [Descriptor.expandMembers_cons_of_ok howner hv, hvalue v hv hfrom]
      cases v.expand c cfg path hfrom with
      | error err => rfl
      | ok e => cases Descriptor.expandMembers c cfg path owner howner ms <;> rfl

/-- A visit needs the answers to the visits that it calls for, and no others. -/
theorem step_eq_expand {answer : Visit → Except ShapeError Expansion} (hx : x.type.From c)
    (h : ∀ y, x.Calls c cfg y → ∀ hy, answer y = y.type.expand c cfg y.path hy) :
    x.step c cfg answer = x.type.expand c cfg x.path hx := by
  rw [step, Descriptor.expand]
  cases free : x.path.holds x.type.pathKey with
  | true => rfl
  | false =>
    cases kind : x.type.category cfg with
    | leaf => rfl
    | collection =>
      have hall := mapM_eq_expandAll hx.arguments (List.forall₂_same.mpr fun a ha =>
        h ⟨x.path, a⟩ (.argument free kind ha))
      exact congrArg (Except.map _) hall
    | composite mode ms =>
      by_cases room : x.path.expansions x.type.name < cfg.maxGenericNesting
      · simp only [room, if_true]
        refine congrArg (Except.map _) (mapM_eq_expandMembers hx (fun m _ err herr => ?_)
          fun m hm v hv hfrom => ?_)
        · rw [herr]
          rfl
        · rw [hv, ← h _ (.member free kind room hm hv) hfrom]
          rfl
      · simp only [room, if_false]

/-- What answers every visit as its step does is the walk. -/
theorem answer_eq_expand {answer : Visit → Except ShapeError Expansion}
    (h : ∀ x, Reached c cfg r x → answer x = x.step c cfg answer) (hx : Reached c cfg r x) :
    answer x = x.type.expand c cfg x.path hx.from := by
  induction hx.acc with
  | intro x _ ih =>
    rw [h x hx]
    exact step_eq_expand hx.from fun y hcall _ => ih y hcall (hx.calls hcall)

/-! ### The open types -/

theorem Reached.opened (h : Reached c cfg r x) :
    ∀ o ∈ x.path, ∃ y, Reached c cfg r y ∧ o = ⟨y.type.name, y.type.pathKey⟩ := by
  refine h.preserves (fun _ _ _ ho => nomatch ho) fun x y hx hcall ih => ?_
  cases hcall with
  | argument => exact ih
  | member free kind room mem value =>
    intro o ho
    rcases List.mem_cons.mp ho with rfl | ho
    · exact ⟨x, hx, rfl⟩
    · exact ih o ho

/-- A type is opened only under a key that is not on the path. -/
theorem Reached.keys_nodup (h : Reached c cfg r x) : (x.path.map OpenType.key).Nodup := by
  refine h.preserves (fun _ _ => .nil) fun x y _ hcall ih => ?_
  cases hcall with
  | argument => exact ih
  | member free kind room mem value =>
    exact List.nodup_cons.mpr ⟨Path.holds_eq_false_iff.mp free, ih⟩

theorem Reached.expansions_le (h : Reached c cfg r x) (name : String) :
    x.path.expansions name ≤ cfg.maxGenericNesting := by
  refine h.preserves (fun _ _ => Nat.zero_le _) fun x y _ hcall ih => ?_
  cases hcall with
  | argument => exact ih
  | member free kind room mem value =>
    rw [Path.expansions_push]
    split
    · rename_i hname
      rw [← hname]
      exact room
    · exact ih

end Visit

theorem Path.room_nil (limit : Nat) (names : List String) :
    room limit [] names = limit * names.length := by
  induction names with
  | nil => rfl
  | cons name names ih =>
    rw [room, ih, List.length_cons, Nat.mul_succ, Nat.add_comm]
    rfl

namespace Visit

variable {c : Catalog} {cfg : Config} {r : TypeRef} {x y : Visit}

/-- Each open type has used up room, of which there was so much for every definition. -/
theorem Reached.length_add_room_le (h : Reached c cfg r x) :
    x.path.length + x.path.room cfg.maxGenericNesting c.names ≤
      cfg.maxGenericNesting * c.size := by
  refine h.preserves (fun _ _ => ?_) fun x y hx hcall ih => ?_
  · rw [Path.room_nil, NameTable.names, List.length_map]
    exact Nat.le_of_eq (Nat.zero_add _)
  · cases hcall with
    | argument => exact ih
    | member free kind room mem value =>
      have hless := Path.room_push_lt (NameTable.mem_names_of_find? hx.from.listed) room
      have hlength : (x.path.push x.type).length = x.path.length + 1 := rfl
      simp only
      omega

/-! ### Between two openings -/

theorem Reached.exists_resolved (h : Reached c cfg r x) :
    ∃ v, Resolved c cfg r x.path v ∧ v.Within x.type := by
  refine h.preserves (fun d hd => ⟨d, .start hd, .refl⟩) fun x y hx hcall ih => ?_
  cases hcall with
  | argument free kind mem =>
    obtain ⟨v, hv, hwithin⟩ := ih
    exact ⟨v, hv, hwithin.tail mem⟩
  | member free kind room mem value => exact ⟨_, .member hx kind mem value, .refl⟩

/-- Calls that open no type lead down the arguments of the one they start from. -/
theorem within_or_opens (h : ReflTransGen (Calls c cfg) x y) :
    y.path = x.path ∧ x.type.Within y.type ∨ x.path.length < y.path.length := by
  induction h with
  | refl => exact .inl ⟨rfl, .refl⟩
  | @tail y z _ hcall ih =>
    cases hcall with
    | argument free kind mem => exact ih.imp (fun h => ⟨h.1, h.2.tail mem⟩) id
    | member =>
      refine .inr (Nat.lt_succ_of_le ?_)
      rcases ih with ⟨hpath, -⟩ | hlt
      · exact Nat.le_of_eq (congrArg List.length hpath.symm)
      · exact Nat.le_of_lt hlt

end Visit

/-- The walk of a reference ends, with bounds on the types that are open at any visit. -/
structure Catalog.WalkEnds (c : Catalog) (cfg : Config) (r : TypeRef) : Prop where
  wellFounded : WellFounded fun y x : {x : Visit // x.Reached c cfg r} => x.1.Calls c cfg y.1
  /-- The walk is the only solution of the equations that its steps give. -/
  solved : ∀ answer : Visit → Except ShapeError Expansion,
    (∀ x, x.Reached c cfg r → answer x = x.step c cfg answer) ↔
      ∀ x, x.Reached c cfg r → ∀ hx, answer x = x.type.expand c cfg x.path hx
  distinct : ∀ x : Visit, x.Reached c cfg r → (x.path.map OpenType.key).Nodup
  nesting : ∀ x : Visit, x.Reached c cfg r → ∀ name,
    x.path.expansions name ≤ cfg.maxGenericNesting
  depth : ∀ x : Visit, x.Reached c cfg r → x.path.length ≤ cfg.maxGenericNesting * c.size
  /-- Since the last type was opened the walk went down the arguments of one resolved type. -/
  resolved : ∀ x : Visit, x.Reached c cfg r →
    ∃ v, Visit.Resolved c cfg r x.path v ∧ v.Within x.type
  descent : ∀ x y : Visit, ReflTransGen (Visit.Calls c cfg) x y →
    y.path.length ≤ x.path.length → y.path = x.path ∧ x.type.Within y.type

theorem Catalog.walkEnds (c : Catalog) (cfg : Config) (r : TypeRef) : c.WalkEnds cfg r where
  wellFounded := by
    refine ⟨fun ⟨x, hx⟩ => ?_⟩
    induction hx.acc with
    | intro x _ ih => exact Acc.intro _ fun ⟨y, hy⟩ hcall => ih y hcall hy
  solved answer := by
    refine ⟨fun h x hx _ => Visit.answer_eq_expand h hx, fun h x hx => ?_⟩
    rw [h x hx hx.from]
    exact (Visit.step_eq_expand hx.from fun y hcall hy => h y (hx.calls hcall) hy).symm
  distinct x hx := hx.keys_nodup
  nesting x hx := hx.expansions_le
  depth x hx := Nat.le_trans (Nat.le_add_right _ _) hx.length_add_room_le
  resolved x hx := hx.exists_resolved
  descent x y hcalls hpath := (Visit.within_or_opens hcalls).resolve_right (Nat.not_lt.mpr hpath)

end ShapeLedger
