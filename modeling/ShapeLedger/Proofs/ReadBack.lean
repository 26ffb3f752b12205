import Mathlib.Data.List.Forall2

/-!
Texts that can be read back. An item is told from every other one by its text
as long as a stop, or the end, follows it. A name that avoids the stops is read
back up to the first one, and a list of items with separators between them is
read back item by item up to the character that closes it.
-/

namespace ShapeLedger.Text

/-- The text has ended or goes on with a stop. -/
def Stopped (stops t : List Char) : Prop := ∀ c ∈ t.head?, c ∈ stops

@[simp] theorem stopped_nil (stops : List Char) : Stopped stops [] := by simp [Stopped]

@[simp] theorem stopped_cons {stops : List Char} {c : Char} {t : List Char} :
    Stopped stops (c :: t) ↔ c ∈ stops := by simp [Stopped]

theorem Stopped.cons_stops {stops t : List Char} (h : Stopped stops t) (c : Char) :
    Stopped (c :: stops) t :=
  fun x hx => List.mem_cons_of_mem c (h x hx)

/-- No character of `s` is one of `chars`. -/
def Avoids (chars : List Char) (s : String) : Prop := ∀ c ∈ s.toList, c ∉ chars

instance (chars : List Char) (s : String) : Decidable (Avoids chars s) :=
  List.decidableBAll (· ∉ chars) s.toList

theorem Avoids.mono {chars chars' : List Char} {s : String} (h : Avoids chars s)
    (hsub : chars' ⊆ chars) : Avoids chars' s :=
  fun c hc hc' => h c hc (hsub hc')

theorem Avoids.append {chars : List Char} {s t : String} (hs : Avoids chars s)
    (ht : Avoids chars t) : Avoids chars (s ++ t) := by
  intro c hc
  rw [String.toList_append, List.mem_append] at hc
  exact hc.elim (hs c) (ht c)

/-- A name is read back up to the first stop. -/
theorem Avoids.append_inj {stops : List Char} {a b : String} (ha : Avoids stops a)
    (hb : Avoids stops b) {t t' : List Char} (ht : Stopped stops t) (ht' : Stopped stops t')
    (h : a.toList ++ t = b.toList ++ t') : a = b ∧ t = t' := by
  rw [Avoids] at ha hb
  rw [← String.toList_inj]
  generalize a.toList = as at ha h
  generalize b.toList = bs at hb h
  induction as generalizing bs with
  | nil =>
    cases bs with
    | nil => exact ⟨rfl, h⟩
    | cons c bs =>
      cases h
      exact absurd (stopped_cons.mp ht) (hb c List.mem_cons_self)
  | cons c as ih =>
    cases bs with
    | nil =>
      cases h
      exact absurd (stopped_cons.mp ht') (ha c List.mem_cons_self)
    | cons d bs =>
      obtain ⟨rfl, htail⟩ := List.cons.inj h
      obtain ⟨rfl, hrest⟩ := ih (fun x hx => ha x (List.mem_cons_of_mem _ hx)) bs
        (fun x hx => hb x (List.mem_cons_of_mem _ hx)) htail
      exact ⟨rfl, hrest⟩

/-- Behind the first of several texts stands a separator or what closes them. -/
theorem intercalate_cons_append (sep close : Char) (x : List Char) (xs : List (List Char))
    (t : List Char) :
    ∃ c u, (c = sep ∨ c = close) ∧ [sep].intercalate (x :: xs) ++ close :: t = x ++ c :: u := by
  cases xs with
  | nil => exact ⟨close, t, .inr rfl, by simp⟩
  | cons x' xs => exact ⟨sep, [sep].intercalate (x' :: xs) ++ close :: t, .inl rfl, by simp⟩

variable {α : Type} {stops : List Char} {text : α → List Char} {same : α → α → Prop}

/-- With stops behind them, the texts of `x` and `y` agree only if both items
are the same, and then the same is left. -/
def ReadBack (stops : List Char) (text : α → List Char) (same : α → α → Prop) (x y : α) : Prop :=
  ∀ t t', Stopped stops t → Stopped stops t' → text x ++ t = text y ++ t' → same x y ∧ t = t'

theorem intercalate_readBack {sep close : Char} (hne : sep ≠ close) (hsep : sep ∈ stops)
    (hclose : close ∈ stops) {xs ys : List α} (hxs : xs ≠ []) (hys : ys ≠ [])
    (hread : ∀ x ∈ xs, ∀ y ∈ ys, ReadBack stops text same x y) {t t' : List Char}
    (h : [sep].intercalate (xs.map text) ++ close :: t =
      [sep].intercalate (ys.map text) ++ close :: t') :
    List.Forall₂ same xs ys ∧ t = t' := by
  induction xs generalizing ys with
  | nil => exact absurd rfl hxs
  | cons x xs ih =>
    cases ys with
    | nil => exact absurd rfl hys
    | cons y ys =>
      have hfirst := hread x List.mem_cons_self y List.mem_cons_self
      -- If only one list ends here, a separator stands where the other is closed.
      cases xs with
      | nil =>
        cases ys with
        | nil =>
          obtain ⟨hxy, hrest⟩ := hfirst _ _ (stopped_cons.mpr hclose) (stopped_cons.mpr hclose)
            (by simpa using h)
          exact ⟨.cons hxy .nil, (List.cons.inj hrest).2⟩
        | cons y' ys =>
          obtain ⟨-, hrest⟩ := hfirst _ _ (stopped_cons.mpr hclose) (stopped_cons.mpr hsep)
            (by simpa using h)
          exact absurd (List.cons.inj hrest).1.symm hne
      | cons x' xs =>
        cases ys with
        | nil =>
          obtain ⟨-, hrest⟩ := hfirst _ _ (stopped_cons.mpr hsep) (stopped_cons.mpr hclose)
            (by simpa using h)
          exact absurd (List.cons.inj hrest).1 hne
        | cons y' ys =>
          obtain ⟨hxy, hrest⟩ := hfirst _ _ (stopped_cons.mpr hsep) (stopped_cons.mpr hsep)
            (by simpa using h)
          obtain ⟨htail, ht⟩ := ih (List.cons_ne_nil _ _) (List.cons_ne_nil _ _)
            (fun a ha b hb => hread a (List.mem_cons_of_mem _ ha) b (List.mem_cons_of_mem _ hb))
            (by simpa using (List.cons.inj hrest).2)
          exact ⟨.cons hxy htail, ht⟩

end ShapeLedger.Text
