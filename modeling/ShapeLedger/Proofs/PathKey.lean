import ShapeLedger.Proofs.Names
import ShapeLedger.Proofs.Walk

/-!
Path keys as texts. A key is the full name of a type with the keys of its
arguments in brackets, so it is read back like any other text in which marks
close what they open, and it stands for one constructed type of a catalog.
-/

namespace ShapeLedger

open Text

namespace Descriptor

/-- Induction over a constructed type, with a hypothesis for every argument. -/
@[induction_eliminator] theorem argumentInduction {P : Descriptor → Prop}
    (node : ∀ d, (∀ a ∈ d.arguments, P a) → P d) (d : Descriptor) : P d :=
  node d fun a _ => argumentInduction node a
termination_by d
decreasing_by
  have := List.sizeOf_lt_of_mem ‹a ∈ d.arguments›
  cases d
  simp only [Descriptor.mk.sizeOf_spec] at *
  omega

theorem pathKeys_eq_map (ds : List Descriptor) : pathKeys ds = ds.map pathKey := by
  induction ds with
  | nil => rfl
  | cons d ds ih => simp [pathKeys, ih]

theorem pathKey_eq (d : Descriptor) :
    d.pathKey = if d.arguments.isEmpty then d.fullName
      else d.fullName ++ "[" ++ ",".intercalate (d.arguments.map pathKey) ++ "]" := by
  obtain ⟨definition, arguments⟩ := d
  cases arguments with
  | nil => rfl
  | cons a as => simp [pathKey, pathKeys_eq_map]

theorem pathKey_of_nil {d : Descriptor} (h : d.arguments = []) : d.pathKey = d.name := by
  rw [pathKey_eq, h, List.isEmpty_nil, if_pos rfl, fullName_of_nil h]

/-! ### One key, one type -/

def keyChars (d : Descriptor) : List Char := d.pathKey.toList

theorem keyChars_of_nil {d : Descriptor} (h : d.arguments = []) (t : List Char) :
    d.keyChars ++ t = d.name.toList ++ t := by
  rw [keyChars, pathKey_of_nil h]

theorem keyChars_of_ne_nil {d : Descriptor} (h : d.arguments ≠ []) (t : List Char) :
    d.keyChars ++ t = d.fullName.toList ++
      '[' :: ([','].intercalate (d.arguments.map keyChars) ++ ']' :: t) := by
  have hkeys : (d.arguments.map pathKey).map String.toList = d.arguments.map keyChars :=
    List.map_map
  simp [keyChars, pathKey_eq, h, ← hkeys]

theorem name_eq_of_fullName_eq {d d' : Descriptor} (hargs : d.arguments = d'.arguments)
    (h : d.fullName = d'.fullName) : d.name = d'.name := by
  rw [fullName, fullName, arity, arity, hargs] at h
  split at h
  · exact h
  · simpa [String.append_assoc] using h

variable {c : Catalog}

theorem eq_of_name_eq {d d' : Descriptor} (hd : d.From c) (hd' : d'.From c)
    (hargs : d.arguments = d'.arguments) (h : d.name = d'.name) : d = d' := by
  have hdefinition := hd.definition_eq hd' h
  cases d
  cases d'
  cases hdefinition
  cases hargs
  rfl

/-- The key of a type, with a bracket or a comma behind it, is that of no other
type of the catalog. -/
theorem keyChars_readBack (hc : c.TypeNamesAvoid ['[', ']', ',']) {d d' : Descriptor}
    (hd : d.From c) (hd' : d'.From c) : ReadBack [']', ','] keyChars Eq d d' := by
  induction d generalizing d' with
  | node d ih =>
    intro t t' ht ht' h
    have hname := hd.name_avoids hc
    have hname' := hd'.name_avoids hc
    have hfull := hd.fullName_avoids hc (by decide) rfl
    have hfull' := hd'.fullName_avoids hc (by decide) rfl
    -- A bracket follows the name if there are arguments, so both have some or none.
    by_cases hargs : d.arguments = [] <;> by_cases hargs' : d'.arguments = []
    · rw [keyChars_of_nil hargs, keyChars_of_nil hargs'] at h
      obtain ⟨heq, hrest⟩ := hname.append_inj hname' (ht.cons_stops _)
        (ht'.cons_stops _) h
      exact ⟨eq_of_name_eq hd hd' (hargs.trans hargs'.symm) heq, hrest⟩
    · rw [keyChars_of_nil hargs, keyChars_of_ne_nil hargs'] at h
      obtain ⟨-, rfl⟩ := hname.append_inj hfull' (ht.cons_stops _)
        (stopped_cons.mpr (by decide)) h
      exact absurd (stopped_cons.mp ht) (by decide)
    · rw [keyChars_of_ne_nil hargs, keyChars_of_nil hargs'] at h
      obtain ⟨-, rfl⟩ := hfull.append_inj hname' (stopped_cons.mpr (by decide))
        (ht'.cons_stops _) h
      exact absurd (stopped_cons.mp ht') (by decide)
    · rw [keyChars_of_ne_nil hargs, keyChars_of_ne_nil hargs'] at h
      obtain ⟨heq, hinner⟩ := hfull.append_inj hfull' (stopped_cons.mpr (by decide))
        (stopped_cons.mpr (by decide)) h
      obtain ⟨hall, hrest⟩ := intercalate_readBack (by decide) (by decide) (by decide) hargs hargs'
        (fun a ha a' ha' => ih a ha (hd.arguments a ha) (hd'.arguments a' ha'))
        (List.cons.inj hinner).2
      have hlist : d.arguments = d'.arguments := List.forall₂_eq_eq_eq ▸ hall
      exact ⟨eq_of_name_eq hd hd' hlist (name_eq_of_fullName_eq hlist heq), hrest⟩

theorem pathKey_inj (hc : c.TypeNamesAvoid ['[', ']', ',']) {d d' : Descriptor} (hd : d.From c)
    (hd' : d'.From c) (h : d.pathKey = d'.pathKey) : d = d' := by
  refine (keyChars_readBack hc hd hd' [] [] (stopped_nil _) (stopped_nil _) ?_).1
  rw [keyChars, keyChars, h]

/-- A key is on the path if and only if its type is open. -/
theorem holds_opened_iff_mem (hc : c.TypeNamesAvoid ['[', ']', ',']) {ds : List Descriptor}
    (hds : ∀ o ∈ ds, o.From c) {d : Descriptor} (hd : d.From c) :
    (Path.opened ds).holds d.pathKey = true ↔ d ∈ ds := by
  rw [Path.holds_opened_iff, List.mem_map]
  constructor
  · rintro ⟨o, ho, hkey⟩
    exact pathKey_inj hc (hds o ho) hd hkey ▸ ho
  · intro hmem
    exact ⟨d, hmem, rfl⟩

end Descriptor

end ShapeLedger
