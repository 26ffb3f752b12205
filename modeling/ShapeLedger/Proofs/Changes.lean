import ShapeLedger.Proofs.Tables
import ShapeLedger.Shape.Diff

/-!
The changes between two tables of members. There is one change for each name
under which the tables differ, in ascending order of the names, so equal tables
are those without changes. Two passes over the tables find the same changes,
and sorting by the names brings them into this order.
-/

namespace ShapeLedger

namespace Shape

open NameTable

variable {old new : MemberTable}

theorem name_of_changeOf? {name : String} {c : Change} (h : changeOf? old new name = some c) :
    c.name = name := by
  rw [changeOf?] at h
  split at h
  · cases h
  · cases h
    rfl
  · cases h
    rfl
  · split at h <;> cases h
    rfl

/-- A name without a change stands for the same member in both tables, or for none. -/
theorem changeOf?_eq_none_iff {name : String} :
    changeOf? old new name = none ↔ old.find? name = new.find? name := by
  rw [changeOf?]
  split
  · simp [*]
  · simp [*]
  · simp [*]
  · rename_i m m' hm hm'
    have hname : m.name = m'.name := (nameOf_of_find? hm).trans (nameOf_of_find? hm').symm
    have hsame : m = m' ↔ m.typeText = m'.typeText := by
      cases m
      cases m'
      cases hname
      simp
    rw [hm, hm', Option.some.injEq, hsame]
    split <;> simp [*]

/-- A name that is in neither table has no change. -/
theorem find?_eq_of_not_mem_names {name : String}
    (h : name ∉ (new.items.foldl insert old).names) : old.find? name = new.find? name := by
  have hnames := mem_names_foldl_insert.not.mp h
  rw [not_or, mem_names_iff, Option.not_isSome_iff_eq_none] at hnames
  have hnew : new.find? name = none := by
    rw [← Option.not_isSome_iff_eq_none, ← mem_names_iff]
    exact hnames.2
  rw [hnames.1, hnew]

theorem mem_changes {c : Change} : c ∈ changes old new ↔ changeOf? old new c.name = some c := by
  rw [changes, List.mem_filterMap]
  constructor
  · rintro ⟨name, -, h⟩
    rw [name_of_changeOf? h, h]
  · intro h
    refine ⟨c.name, ?_, h⟩
    by_contra hmem
    rw [changeOf?_eq_none_iff.mpr (find?_eq_of_not_mem_names hmem)] at h
    cases h

/-- The changes are in strictly ascending order of the names. -/
theorem changes_ascending (old new : MemberTable) :
    (changes old new).Pairwise fun c c' => c.name < c'.name := by
  refine List.Pairwise.filterMap _ (fun n n' hlt c hc c' hc' => ?_) (names_ascending _)
  rw [name_of_changeOf? hc, name_of_changeOf? hc']
  exact hlt

theorem changes_eq_nil_iff : changes old new = [] ↔ old = new := by
  constructor
  · intro h
    refine ext_find? fun name => changeOf?_eq_none_iff.mp ?_
    cases hc : changeOf? old new name with
    | none => rfl
    | some c =>
      have hmem : c ∈ changes old new := mem_changes.mpr (name_of_changeOf? hc ▸ hc)
      rw [h] at hmem
      cases hmem
  · rintro rfl
    refine List.eq_nil_iff_forall_not_mem.mpr fun c hc => ?_
    have := mem_changes.mp hc
    rw [changeOf?_eq_none_iff.mpr rfl] at this
    cases this

theorem changeOf?_eq_some_iff {name : String} {c : Change} :
    changeOf? old new name = some c ↔
      (∃ m, old.find? name = some m ∧ new.find? name = none ∧ c = .removed name m.typeText) ∨
      (∃ m', old.find? name = none ∧ new.find? name = some m' ∧ c = .added name m'.typeText) ∨
      ∃ m m', old.find? name = some m ∧ new.find? name = some m' ∧
        m.typeText ≠ m'.typeText ∧ c = .retyped name m.typeText m'.typeText := by
  rw [changeOf?]
  split
  · simp [*]
  · simp [*, eq_comm]
  · simp [*, eq_comm]
  · rename_i m m' hm hm'
    split <;> simp [*, eq_comm]

/-! ### Two passes and a sort -/

/-- What a pass over the old members finds: those that are gone or have another type. -/
def lost (old new : MemberTable) : List Change :=
  old.items.filterMap fun m =>
    match new.find? m.name with
    | none => some (.removed m.name m.typeText)
    | some m' =>
      if m'.typeText = m.typeText then none else some (.retyped m.name m.typeText m'.typeText)

/-- What a pass over the new members finds: those that are new. -/
def gained (old new : MemberTable) : List Change :=
  (new.items.filter fun m => (old.find? m.name).isNone).map fun m => .added m.name m.typeText

theorem lost_eq (old new : MemberTable) :
    lost old new = old.names.filterMap (changeOf? old new) := by
  rw [lost, names, List.filterMap_map]
  apply List.filterMap_congr
  intro m hm
  rw [Function.comp_apply, changeOf?, find?_of_mem hm]
  cases new.find? m.name with
  | none => rfl
  | some m' => simp only [eq_comm]

theorem gained_eq (old new : MemberTable) :
    gained old new = (new.names.filter (· ∉ old.names)).filterMap (changeOf? old new) := by
  have hfilter : (fun m : MemberShape => (old.find? m.name).isNone) =
      (fun name => decide (name ∉ old.names)) ∘ MemberShape.name := by
    funext m
    cases hold : old.find? m.name <;> simp [mem_names_iff, hold]
  have hnames : new.names = new.items.map MemberShape.name := rfl
  rw [gained, hfilter, hnames, List.filter_map, List.filterMap_map, ← List.filterMap_eq_map]
  apply List.filterMap_congr
  intro m hm
  obtain ⟨hm, hold⟩ := List.mem_filter.mp hm
  have hnone : old.find? m.name = none := by simpa [mem_names_iff] using hold
  rw [Function.comp_apply, Function.comp_apply, changeOf?, hnone, find?_of_mem hm]

/-- Two passes find the changes, and sorting them by their names gives them in order. -/
theorem changes_eq_mergeSort (old new : MemberTable) :
    changes old new =
      (lost old new ++ gained old new).mergeSort fun c c' => decide (c.name ≤ c'.name) := by
  have hnames : (new.items.foldl insert old).names.Perm
      (old.names ++ new.names.filter (· ∉ old.names)) := by
    rw [List.perm_ext_iff_of_nodup (names_nodup _)]
    · intro name
      rw [mem_names_foldl_insert, List.mem_append, List.mem_filter, names, names]
      by_cases hold : name ∈ old.items.map MemberShape.name <;> simp [hold]
    · refine List.nodup_append.mpr ⟨names_nodup _, (names_nodup _).filter _, ?_⟩
      rintro name hold _ hnew rfl
      exact absurd hold (by simpa using (List.mem_filter.mp hnew).2)
  let t : NameTable Change.name := ⟨changes old new, changes_ascending old new⟩
  have hperm : (lost old new ++ gained old new).Perm t.items := by
    rw [lost_eq, gained_eq, ← List.filterMap_append]
    exact (hnames.filterMap _).symm
  exact (mergeSort_eq_items hperm).symm

/-! ### Changes between lists of members -/

/-- The changes from the members `ms` to the members `ms'`, if no name is repeated in either
list: those that are gone, those that are new, and those of another type. -/
theorem mem_changes_ofList {ms ms' : List MemberShape} (h : (ms.map MemberShape.name).Nodup)
    (h' : (ms'.map MemberShape.name).Nodup) {c : Change} :
    c ∈ changes (ofList MemberShape.name ms) (ofList MemberShape.name ms') ↔
      (∃ m ∈ ms, (∀ m' ∈ ms', m'.name ≠ m.name) ∧ c = .removed m.name m.typeText) ∨
      (∃ m' ∈ ms', (∀ m ∈ ms, m.name ≠ m'.name) ∧ c = .added m'.name m'.typeText) ∨
      ∃ m ∈ ms, ∃ m' ∈ ms', m.name = m'.name ∧ m.typeText ≠ m'.typeText ∧
        c = .retyped m.name m.typeText m'.typeText := by
  rw [mem_changes, changeOf?_eq_some_iff]
  simp only [find?_ofList_eq_some_iff h, find?_ofList_eq_some_iff h', find?_ofList_eq_none_iff]
  constructor
  · rintro (⟨m, ⟨hm, hname⟩, hnone, hc⟩ | ⟨m', hnone, ⟨hm', hname'⟩, hc⟩ |
      ⟨m, m', ⟨hm, hname⟩, ⟨hm', hname'⟩, htype, hc⟩)
    · exact .inl ⟨m, hm, fun x hx => hname ▸ hnone x hx, hname ▸ hc⟩
    · exact .inr (.inl ⟨m', hm', fun x hx => hname' ▸ hnone x hx, hname' ▸ hc⟩)
    · exact .inr (.inr ⟨m, hm, m', hm', hname.trans hname'.symm, htype, hname ▸ hc⟩)
  · rintro (⟨m, hm, hnone, rfl⟩ | ⟨m', hm', hnone, rfl⟩ | ⟨m, hm, m', hm', hname, htype, rfl⟩)
    · exact .inl ⟨m, ⟨hm, rfl⟩, hnone, rfl⟩
    · exact .inr (.inl ⟨m', hnone, ⟨hm', rfl⟩, rfl⟩)
    · exact .inr (.inr ⟨m, m', ⟨hm, rfl⟩, ⟨hm', hname.symm⟩, htype, rfl⟩)

end Shape

end ShapeLedger
