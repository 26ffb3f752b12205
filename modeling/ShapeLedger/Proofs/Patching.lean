import ShapeLedger.Proofs.Changes

/-!
Changes carried out. A change says what it finds in a table and what it leaves
there, so it is carried out only on a table that has what it finds. The changes
from one table to another are carried out one after the other: each leaves the
names behind it as they were and takes its own name from the first table to the
second. Turned round, they lead back.
-/

namespace ShapeLedger

namespace NameTable

variable {α : Type} {nameOf : α → String}

/-- Takes out the item of that name, if there is one. -/
def erase (t : NameTable nameOf) (name : String) : NameTable nameOf :=
  ⟨t.items.filter fun a => nameOf a ≠ name, t.ascending.filter _⟩

theorem find?_erase (t : NameTable nameOf) (name other : String) :
    (t.erase name).find? other = if name = other then none else t.find? other := by
  rw [find?, find?, erase, List.find?_filter]
  split
  · rename_i heq
    subst heq
    simp
  · rename_i hne
    congr 1
    funext a
    by_cases hname : nameOf a = other
    · simp [hname, Ne.symm hne]
    · simp [hname]

end NameTable

open NameTable

namespace Change

/-- The same change the other way round. -/
def reversed : Change → Change
  | .added name typeText => .removed name typeText
  | .removed name typeText => .added name typeText
  | .retyped name oldType newType => .retyped name newType oldType

@[simp] theorem name_reversed (c : Change) : c.reversed.name = c.name := by
  cases c <;> rfl

/-- Carries a change out. What is added must be absent, what is removed must have the type that
the change states, and what is retyped must have the old type, which must not be the new one. -/
def applyTo? (t : Shape.MemberTable) : Change → Option Shape.MemberTable
  | .added name typeText =>
    if t.find? name = none then some (t.insert ⟨name, typeText⟩) else none
  | .removed name typeText =>
    if t.find? name = some ⟨name, typeText⟩ then some (t.erase name) else none
  | .retyped name oldType newType =>
    if t.find? name = some ⟨name, oldType⟩ ∧ oldType ≠ newType then
      some (t.insert ⟨name, newType⟩)
    else none

end Change

namespace Shape

variable {old new t : MemberTable}

theorem eq_mk_of_find? {name : String} {m : MemberShape} (h : t.find? name = some m) :
    m = ⟨name, m.typeText⟩ := by
  rw [← nameOf_of_find? h]

/-- A change is carried out on a table that agrees with the old one on its name, and brings it to
agree with the new one there. -/
theorem exists_applyTo? {name : String} {c : Change} (hc : changeOf? old new name = some c)
    (ht : t.find? name = old.find? name) :
    ∃ t', c.applyTo? t = some t' ∧
      ∀ other, t'.find? other = if name = other then new.find? name else t.find? other := by
  rcases changeOf?_eq_some_iff.mp hc with ⟨m, hold, hnew, rfl⟩ | ⟨m', hold, hnew, rfl⟩ |
    ⟨m, m', hold, hnew, htype, rfl⟩
  · have hfind : t.find? name = some ⟨name, m.typeText⟩ := by
      rw [ht, hold, ← eq_mk_of_find? hold]
    refine ⟨t.erase name, if_pos hfind, fun other => ?_⟩
    rw [find?_erase, hnew]
  · have hfind : t.find? name = none := ht.trans hold
    refine ⟨t.insert ⟨name, m'.typeText⟩, if_pos hfind, fun other => ?_⟩
    rw [find?_insert, hnew, ← eq_mk_of_find? hnew, nameOf_of_find? hnew]
  · have hfind : t.find? name = some ⟨name, m.typeText⟩ := by
      rw [ht, hold, ← eq_mk_of_find? hold]
    refine ⟨t.insert ⟨name, m'.typeText⟩, if_pos ⟨hfind, htype⟩, fun other => ?_⟩
    rw [find?_insert, hnew, ← eq_mk_of_find? hnew, nameOf_of_find? hnew]

/-- The changes of the names in a list are carried out one after the other on a table that agrees
with the old one on these names. -/
theorem exists_foldlM_applyTo? {names : List String} (hnodup : names.Nodup)
    (ht : ∀ name ∈ names, t.find? name = old.find? name) :
    ∃ t', (names.filterMap (changeOf? old new)).foldlM Change.applyTo? t = some t' ∧
      ∀ name, t'.find? name = if name ∈ names then new.find? name else t.find? name := by
  induction names generalizing t with
  | nil => exact ⟨t, rfl, fun name => by simp⟩
  | cons name names ih =>
    obtain ⟨hnew, hrest⟩ := List.nodup_cons.mp hnodup
    obtain ⟨hhead, htail⟩ := List.forall_mem_cons.mp ht
    cases hc : changeOf? old new name with
    | none =>
      rw [List.filterMap_cons_none hc]
      obtain ⟨t', ht', hfind⟩ := ih hrest htail
      refine ⟨t', ht', fun other => ?_⟩
      rw [hfind]
      by_cases heq : other = name
      · subst heq
        simp [hnew, hhead, changeOf?_eq_none_iff.mp hc]
      · simp [heq]
    | some c =>
      rw [List.filterMap_cons_some hc, List.foldlM_cons]
      obtain ⟨u, hu, hufind⟩ := exists_applyTo? hc hhead
      have hagree : ∀ other ∈ names, u.find? other = old.find? other := by
        intro other hother
        have hne : name ≠ other := fun heq => hnew (heq ▸ hother)
        rw [hufind, if_neg hne, htail other hother]
      obtain ⟨t', ht', hfind⟩ := ih hrest hagree
      refine ⟨t', by rw [hu]; exact ht', fun other => ?_⟩
      rw [hfind, hufind]
      by_cases heq : name = other
      · subst heq
        simp [hnew]
      · simp [heq, Ne.symm heq]

/-- Carrying the changes out turns the old table into the new one. -/
theorem foldlM_changes (old new : MemberTable) :
    (changes old new).foldlM Change.applyTo? old = some new := by
  obtain ⟨t, ht, hfind⟩ : ∃ t, (changes old new).foldlM Change.applyTo? old = some t ∧ _ :=
    exists_foldlM_applyTo? (names_nodup _) fun _ _ => rfl
  have heq : t = new := by
    apply ext_find?
    intro name
    rw [hfind]
    split
    · rfl
    · rename_i hmem
      exact find?_eq_of_not_mem_names hmem
  exact heq ▸ ht

/-! ### The changes back -/

theorem changeOf?_swap (old new : MemberTable) (name : String) :
    changeOf? new old name = (changeOf? old new name).map Change.reversed := by
  rw [changeOf?, changeOf?]
  cases old.find? name with
  | none => cases new.find? name <;> rfl
  | some m =>
    cases new.find? name with
    | none => rfl
    | some m' =>
      by_cases htype : m.typeText = m'.typeText
      · simp [htype]
      · simp [htype, Ne.symm htype, Change.reversed]

theorem find?_changes (old new : MemberTable) (name : String) :
    (changes old new).find? (fun c => c.name = name) = changeOf? old new name := by
  have hnodup : ((changes old new).map Change.name).Nodup :=
    List.pairwise_map.mpr ((changes_ascending old new).imp String.ne_of_lt)
  refine Option.ext fun c => ?_
  rw [find?_eq_some_iff_of_nodup hnodup, mem_changes]
  constructor
  · rintro ⟨hc, rfl⟩
    exact hc
  · intro hc
    have hname := name_of_changeOf? hc
    exact ⟨hname.symm ▸ hc, hname⟩

/-- The changes back are the same changes turned round, in the same order. -/
theorem changes_swap (old new : MemberTable) :
    changes new old = (changes old new).map Change.reversed := by
  apply eq_of_find?_eq (changes_ascending new old)
  · rw [List.pairwise_map]
    exact (changes_ascending old new).imp fun h => by simpa using h
  · intro name
    rw [find?_changes, changeOf?_swap, List.find?_map, ← find?_changes old new]
    congr 2
    funext c
    simp

/-- The difference of two texts, whatever they are, is a patch: it can be carried out on the
members of the first and gives those of the second, it has at most one change for each name and
none if the members are the same, and turned round it is the difference the other way. -/
theorem diff_patches (old new : String) :
    (diff old new).foldlM Change.applyTo? (memberTable old) = some (memberTable new) ∧
      (diff old new).Pairwise (fun c c' => c.name < c'.name) ∧
      (diff old new = [] ↔ memberTable old = memberTable new) ∧
      diff new old = (diff old new).map Change.reversed :=
  ⟨foldlM_changes _ _, changes_ascending _ _, changes_eq_nil_iff, changes_swap _ _⟩

/-- Without a dash a segment is all type, and of two members of one name the last counts. -/
example : diff "A-X|B-X|C" "D-X" = [.removed "" "C", .retyped "X" "B" "D"] := by decide

end Shape

end ShapeLedger
