/-!
Tables of items that carry their own name. The items are kept in strictly
ascending order of their names, compared by code point, so a table holds at
most one item of each name and two tables that find the same items are equal.
-/

namespace ShapeLedger

variable {α : Type}

/-- A finite table of items of type `α`, each filed under its own name. -/
@[ext] structure NameTable (nameOf : α → String) where
  /-- The items in ascending order of their names. -/
  items : List α
  ascending : items.Pairwise (fun a b => nameOf a < nameOf b)
deriving DecidableEq

namespace NameTable

variable {nameOf : α → String}

def empty : NameTable nameOf := ⟨[], .nil⟩

instance : EmptyCollection (NameTable nameOf) := ⟨empty⟩

instance : Inhabited (NameTable nameOf) := ⟨empty⟩

/-- The item filed under `name`. -/
def find? (t : NameTable nameOf) (name : String) : Option α :=
  t.items.find? (fun a => nameOf a = name)

def names (t : NameTable nameOf) : List String := t.items.map nameOf

def size (t : NameTable nameOf) : Nat := t.items.length

def isEmpty (t : NameTable nameOf) : Bool := t.items.isEmpty

/-- Files an item in an ascending list, in place of the one of its name. -/
def fileIn (nameOf : α → String) (a : α) : List α → List α
  | [] => [a]
  | b :: rest =>
    if nameOf a < nameOf b then a :: b :: rest
    else if nameOf a = nameOf b then a :: rest
    else b :: fileIn nameOf a rest

theorem mem_fileIn {a x : α} {l : List α} (h : x ∈ fileIn nameOf a l) :
    x = a ∨ x ∈ l := by
  induction l with
  | nil => exact .inl (List.mem_singleton.mp h)
  | cons b rest ih => grind [fileIn]

theorem fileIn_ascending {l : List α} (a : α)
    (h : l.Pairwise (fun a b => nameOf a < nameOf b)) :
    (fileIn nameOf a l).Pairwise (fun a b => nameOf a < nameOf b) := by
  induction l with
  | nil => simp [fileIn]
  | cons b rest ih =>
    obtain ⟨hb, hrest⟩ := List.pairwise_cons.mp h
    unfold fileIn
    split
    · rename_i hab
      refine List.pairwise_cons.mpr ⟨fun x hx => ?_, h⟩
      rcases List.mem_cons.mp hx with rfl | hx
      · exact hab
      · exact String.lt_trans hab (hb x hx)
    · split
      · rename_i hab
        exact List.pairwise_cons.mpr ⟨fun x hx => hab ▸ hb x hx, hrest⟩
      · rename_i hlt hne
        have hba : nameOf b < nameOf a := by
          have hle := String.not_lt.mp hlt
          exact Std.lt_of_le_of_ne hle (Ne.symm hne)
        refine List.pairwise_cons.mpr ⟨fun x hx => ?_, ih hrest⟩
        rcases mem_fileIn hx with rfl | hx
        · exact hba
        · exact hb x hx

/-- Files an item, in place of the one of its name if there is one. -/
def insert (t : NameTable nameOf) (a : α) : NameTable nameOf :=
  ⟨fileIn nameOf a t.items, fileIn_ascending a t.ascending⟩

/-- Of several items of one name the last is kept. -/
def ofList (nameOf : α → String) (l : List α) : NameTable nameOf :=
  l.foldl insert empty

@[simp] theorem find?_empty (name : String) :
    (empty : NameTable nameOf).find? name = none := rfl

theorem nameOf_of_find? {t : NameTable nameOf} {name : String} {a : α}
    (h : t.find? name = some a) : nameOf a = name := by
  simpa using List.find?_some h

theorem mem_of_find? {t : NameTable nameOf} {name : String} {a : α}
    (h : t.find? name = some a) : a ∈ t.items :=
  List.mem_of_find?_eq_some h

theorem mem_names_of_find? {t : NameTable nameOf} {name : String} {a : α}
    (h : t.find? name = some a) : name ∈ t.names :=
  List.mem_map.mpr ⟨a, mem_of_find? h, nameOf_of_find? h⟩

theorem find?_fileIn (a : α) (name : String) (l : List α) :
    (fileIn nameOf a l).find? (fun b => nameOf b = name) =
      if nameOf a = name then some a
      else l.find? (fun b => nameOf b = name) := by
  induction l with
  | nil => by_cases h : nameOf a = name <;> simp [fileIn, h]
  | cons b rest ih => grind [fileIn]

theorem find?_insert (t : NameTable nameOf) (a : α) (name : String) :
    (t.insert a).find? name = if nameOf a = name then some a else t.find? name :=
  find?_fileIn a name t.items

theorem eq_of_find?_eq {l m : List α}
    (hl : l.Pairwise (fun a b => nameOf a < nameOf b))
    (hm : m.Pairwise (fun a b => nameOf a < nameOf b))
    (h : ∀ name, l.find? (fun a => nameOf a = name) = m.find? (fun a => nameOf a = name)) :
    l = m := by
  induction l generalizing m with
  | nil =>
    cases m with
    | nil => rfl
    | cons b m => simpa using h (nameOf b)
  | cons a l ih =>
    cases m with
    | nil => simpa using h (nameOf a)
    | cons b m =>
      obtain ⟨ha, htl⟩ := List.pairwise_cons.mp hl
      obtain ⟨hb, htm⟩ := List.pairwise_cons.mp hm
      have hab : a = b := by
        by_cases hname : nameOf b = nameOf a
        · simpa [hname] using h (nameOf a)
        · have hin := h (nameOf a)
          simp only [List.find?_cons, decide_true, hname, decide_false] at hin
          have hlt : nameOf b < nameOf a := hb a (List.mem_of_find?_eq_some hin.symm)
          have hin' := h (nameOf b)
          simp only [List.find?_cons, decide_true, Ne.symm hname, decide_false] at hin'
          exact absurd hlt (String.lt_asymm (ha b (List.mem_of_find?_eq_some hin')))
      subst hab
      congr 1
      refine ih htl htm fun name => ?_
      by_cases hname : nameOf a = name
      · subst hname
        rw [List.find?_eq_none.mpr, List.find?_eq_none.mpr]
        · intro x hx heq
          exact String.lt_irrefl _ (of_decide_eq_true heq ▸ hb x hx)
        · intro x hx heq
          exact String.lt_irrefl _ (of_decide_eq_true heq ▸ ha x hx)
      · simpa [hname] using h name

/-- Tables that find the same items are equal. -/
theorem ext_find? {s t : NameTable nameOf} (h : ∀ name, s.find? name = t.find? name) : s = t :=
  NameTable.ext (eq_of_find?_eq s.ascending t.ascending h)

end NameTable

end ShapeLedger
