import Mathlib.Data.List.Perm.Basic
import Mathlib.Data.List.Nodup
import ShapeLedger.NameTable

/-!
What tables hold that are filled from lists. Of several items of one name the
last is found. If a list gives no name to two of its items, its table holds
these items and nothing else, so their order is forgotten. It is forgotten as
well if items of one name are equal.
-/

namespace ShapeLedger

namespace NameTable

variable {α : Type} {nameOf : α → String}

theorem names_ascending (t : NameTable nameOf) : t.names.Pairwise (· < ·) :=
  List.pairwise_map.mpr t.ascending

theorem names_nodup (t : NameTable nameOf) : t.names.Nodup :=
  t.names_ascending.imp String.ne_of_lt

theorem mem_names_iff {t : NameTable nameOf} {name : String} :
    name ∈ t.names ↔ (t.find? name).isSome := by
  rw [names, find?, List.find?_isSome, List.mem_map]
  simp

theorem mem_insert_self (t : NameTable nameOf) (a : α) : a ∈ (t.insert a).items := by
  have hfind : (t.insert a).find? (nameOf a) = some a := by rw [find?_insert, if_pos rfl]
  exact mem_of_find? hfind

/-- Of items of one name the last is found. -/
theorem find?_foldl_insert (l : List α) (t : NameTable nameOf) (name : String) :
    (l.foldl insert t).find? name =
      (l.reverse.find? fun a => nameOf a = name).or (t.find? name) := by
  induction l generalizing t with
  | nil => rfl
  | cons a l ih =>
    rw [List.foldl_cons, ih, find?_insert, List.reverse_cons, List.find?_append, Option.or_assoc]
    by_cases h : nameOf a = name <;> simp [h]

theorem mem_names_foldl_insert {l : List α} {t : NameTable nameOf} {name : String} :
    name ∈ (l.foldl insert t).names ↔ name ∈ t.names ∨ name ∈ l.map nameOf := by
  rw [mem_names_iff, mem_names_iff, find?_foldl_insert, Option.isSome_or, Bool.or_eq_true,
    or_comm, List.find?_isSome, List.mem_map]
  simp

theorem find?_ofList (l : List α) (name : String) :
    (ofList nameOf l).find? name = l.reverse.find? fun a => nameOf a = name := by
  rw [ofList, find?_foldl_insert, find?_empty, Option.or_none]

theorem find?_eq_some_iff_of_nodup {l : List α} (h : (l.map nameOf).Nodup) {name : String}
    {a : α} : l.find? (fun b => nameOf b = name) = some a ↔ a ∈ l ∧ nameOf a = name := by
  induction l with
  | nil => simp
  | cons b l ih =>
    obtain ⟨hb, hl⟩ := List.nodup_cons.mp h
    by_cases hname : nameOf b = name
    · have hother : ∀ x ∈ l, nameOf x ≠ name := by
        rintro x hx rfl
        exact hb (hname ▸ List.mem_map_of_mem hx)
      rw [List.find?_cons_of_pos (by simpa using hname), Option.some.injEq]
      constructor
      · rintro rfl
        exact ⟨List.mem_cons_self, hname⟩
      · rintro ⟨ha, haname⟩
        rcases List.mem_cons.mp ha with rfl | ha
        · rfl
        · exact absurd haname (hother a ha)
    · rw [List.find?_cons_of_neg (by simpa using hname), ih hl, List.mem_cons]
      constructor
      · exact fun ⟨ha, haname⟩ => ⟨.inr ha, haname⟩
      · rintro ⟨rfl | ha, haname⟩
        · exact absurd haname hname
        · exact ⟨ha, haname⟩

theorem find?_reverse_eq_some_iff_of_nodup {l : List α} (h : (l.map nameOf).Nodup) {name : String}
    {a : α} : l.reverse.find? (fun b => nameOf b = name) = some a ↔ a ∈ l ∧ nameOf a = name := by
  have hreverse : (l.reverse.map nameOf).Nodup := by
    rw [List.map_reverse]
    exact List.nodup_reverse.mpr h
  rw [find?_eq_some_iff_of_nodup hreverse, List.mem_reverse]

/-- Without repeated names, what is found is what is listed. -/
theorem find?_ofList_eq_some_iff {l : List α} (h : (l.map nameOf).Nodup) {name : String} {a : α} :
    (ofList nameOf l).find? name = some a ↔ a ∈ l ∧ nameOf a = name := by
  rw [find?_ofList, find?_reverse_eq_some_iff_of_nodup h]

theorem find?_ofList_eq_none_iff {l : List α} {name : String} :
    (ofList nameOf l).find? name = none ↔ ∀ a ∈ l, nameOf a ≠ name := by
  rw [find?_ofList, List.find?_eq_none]
  simp

theorem perm_of_ofList_eq {l l' : List α} (h : (l.map nameOf).Nodup) (h' : (l'.map nameOf).Nodup)
    (heq : ofList nameOf l = ofList nameOf l') : l.Perm l' := by
  rw [List.perm_ext_iff_of_nodup h.of_map h'.of_map]
  intro a
  have hl : a ∈ l ↔ (ofList nameOf l).find? (nameOf a) = some a := by
    rw [find?_ofList_eq_some_iff h, and_iff_left rfl]
  have hl' : a ∈ l' ↔ (ofList nameOf l').find? (nameOf a) = some a := by
    rw [find?_ofList_eq_some_iff h', and_iff_left rfl]
  rw [hl, hl', heq]

/-- The order in which items of different names are filed is forgotten, whatever was filed
before them. -/
theorem foldl_insert_eq_of_perm {l l' : List α} (h : (l.map nameOf).Nodup) (hperm : l.Perm l')
    (t : NameTable nameOf) : l.foldl insert t = l'.foldl insert t := by
  have h' : (l'.map nameOf).Nodup := (hperm.map nameOf).nodup_iff.mp h
  refine ext_find? fun name => ?_
  have hfind : (l.reverse.find? fun a => nameOf a = name) =
      l'.reverse.find? fun a => nameOf a = name := by
    refine Option.ext fun a => ?_
    rw [find?_reverse_eq_some_iff_of_nodup h, find?_reverse_eq_some_iff_of_nodup h',
      hperm.mem_iff]
  rw [find?_foldl_insert, find?_foldl_insert, hfind]

theorem ofList_eq_of_perm {l l' : List α} (h : (l.map nameOf).Nodup) (hperm : l.Perm l') :
    ofList nameOf l = ofList nameOf l' :=
  foldl_insert_eq_of_perm h hperm empty

theorem find?_of_mem {t : NameTable nameOf} {a : α} (h : a ∈ t.items) :
    t.find? (nameOf a) = some a :=
  (find?_eq_some_iff_of_nodup t.names_nodup).mpr ⟨h, rfl⟩

theorem eq_of_nameOf_eq {t : NameTable nameOf} {a b : α} (ha : a ∈ t.items) (hb : b ∈ t.items)
    (h : nameOf a = nameOf b) : a = b := by
  have hfind := find?_of_mem ha
  rw [h, find?_of_mem hb] at hfind
  exact (Option.some.inj hfind).symm

theorem pairwise_mergeSort (nameOf : α → String) (l : List α) :
    (l.mergeSort fun a b => decide (nameOf a ≤ nameOf b)).Pairwise
      fun a b => nameOf a ≤ nameOf b := by
  refine (List.pairwise_mergeSort (fun a b c hab hbc => ?_) (fun a b => ?_) l).imp of_decide_eq_true
  · exact decide_eq_true (String.le_trans (of_decide_eq_true hab) (of_decide_eq_true hbc))
  · simpa using String.le_total (nameOf a) (nameOf b)

/-- Items of different names are sorted by them into the order of a table. -/
theorem mergeSort_eq_items {l : List α} {t : NameTable nameOf} (h : l.Perm t.items) :
    (l.mergeSort fun a b => decide (nameOf a ≤ nameOf b)) = t.items := by
  have hperm := (List.mergeSort_perm l fun a b => decide (nameOf a ≤ nameOf b)).trans h
  refine hperm.eq_of_pairwise (fun a b ha hb hab hba => ?_) (pairwise_mergeSort nameOf l)
    (t.ascending.imp Std.le_of_lt)
  apply eq_of_nameOf_eq (hperm.mem_iff.mp ha) hb
  exact String.le_antisymm hab hba

theorem filter_items (t : NameTable nameOf) (name : String) :
    (t.items.filter fun a => nameOf a = name) = (t.find? name).toList := by
  have hhead : (t.items.filter fun a => nameOf a = name).head? = t.find? name :=
    List.head?_filter
  have hname : ∀ a ∈ t.items.filter fun a => nameOf a = name, nameOf a = name :=
    fun a ha => of_decide_eq_true (List.mem_filter.mp ha).2
  have hascending := t.ascending.filter fun a => nameOf a = name
  rw [← hhead]
  cases h : t.items.filter fun a => nameOf a = name with
  | nil => rfl
  | cons a as =>
    cases as with
    | nil => rfl
    | cons b bs =>
      rw [h] at hname hascending
      have hlt := (List.pairwise_cons.mp hascending).1 b List.mem_cons_self
      rw [hname a List.mem_cons_self, hname b (List.mem_cons_of_mem _ List.mem_cons_self)] at hlt
      exact absurd hlt (String.lt_irrefl _)

/-- Items are filed in any order, perhaps more than once. -/
theorem ofList_eq {as : List α} {t : NameTable nameOf} (h : ∀ a, a ∈ as ↔ a ∈ t.items) :
    ofList nameOf as = t := by
  refine ext_find? fun name => ?_
  rw [find?_ofList]
  cases hfind : as.reverse.find? fun a => nameOf a = name with
  | none =>
    cases hname : t.find? name with
    | none => rfl
    | some a =>
      have hmem : a ∈ as.reverse := List.mem_reverse.mpr ((h a).mpr (mem_of_find? hname))
      have hne := List.find?_eq_none.mp hfind a hmem
      exact absurd (decide_eq_true (nameOf_of_find? hname)) hne
  | some a =>
    have hname : nameOf a = name := by simpa using List.find?_some hfind
    have hmem := (h a).mp (List.mem_reverse.mp (List.mem_of_find?_eq_some hfind))
    rw [← hname, find?_of_mem hmem]

/-- Without repeated names, a table holds what is filed in it and nothing else. -/
theorem perm_items_ofList {l : List α} (h : (l.map nameOf).Nodup) :
    l.Perm (ofList nameOf l).items :=
  perm_of_ofList_eq h (names_nodup _) (ofList_eq fun _ => Iff.rfl).symm

/-- An item may take the place of others of its name if a later one counts, or else it is the one
that counts. -/
theorem ofList_replace {as cs bs : List α} {a : α} (hcs : ∀ c ∈ cs, nameOf c = nameOf a)
    (ha : (∀ b ∈ bs, nameOf b ≠ nameOf a) →
      (ofList nameOf (as ++ cs ++ bs)).find? (nameOf a) = some a) :
    ofList nameOf (as ++ a :: bs) = ofList nameOf (as ++ cs ++ bs) := by
  refine ext_find? fun name => ?_
  by_cases hname : nameOf a = name
  · subst hname
    cases hbs : bs.reverse.find? fun b => nameOf b = nameOf a with
    | none =>
      rw [ha fun b hb => by simpa using List.find?_eq_none.mp hbs b (List.mem_reverse.mpr hb),
        find?_ofList]
      simp [List.find?_append, hbs]
    | some b =>
      rw [find?_ofList, find?_ofList]
      simp [List.find?_append, hbs]
  · have hnone : cs.reverse.find? (fun c => nameOf c = name) = none := by
      refine List.find?_eq_none.mpr fun c hc => ?_
      simpa [hcs c (List.mem_reverse.mp hc)] using hname
    rw [find?_ofList, find?_ofList]
    simp [List.find?_append, hname, hnone]

end NameTable

end ShapeLedger
