import ShapeLedger.Descriptor
import ShapeLedger.Proofs.ReadBack

/-!
Names without marks. If no name of a catalog holds some characters, then
neither does the full name of a type that is built from the catalog, as long as
the number of arguments is not written with them. If no name holds a grave
accent, a full name tells the definition and whether it is applied.
-/

namespace ShapeLedger

open Text

/-- No type and no member of the catalog has one of `chars` in its name. -/
def Catalog.NamesAvoid (c : Catalog) (chars : List Char) : Prop :=
  ∀ d ∈ c.items, Avoids chars d.name ∧ ∀ m ∈ d.members, Avoids chars m.name

instance (c : Catalog) (chars : List Char) : Decidable (c.NamesAvoid chars) :=
  inferInstanceAs (Decidable (∀ d ∈ c.items, _ ∧ ∀ m ∈ d.members, _))

theorem Catalog.NamesAvoid.mono {c : Catalog} {chars chars' : List Char}
    (h : c.NamesAvoid chars) (hsub : chars' ⊆ chars) : c.NamesAvoid chars' :=
  fun d hd => ⟨(h d hd).1.mono hsub, fun m hm => ((h d hd).2 m hm).mono hsub⟩

/-- No type of the catalog has one of `chars` in its name. Members may. -/
def Catalog.TypeNamesAvoid (c : Catalog) (chars : List Char) : Prop :=
  ∀ d ∈ c.items, Avoids chars d.name

instance (c : Catalog) (chars : List Char) : Decidable (c.TypeNamesAvoid chars) :=
  inferInstanceAs (Decidable (∀ d ∈ c.items, Avoids chars d.name))

theorem Catalog.NamesAvoid.types {c : Catalog} {chars : List Char} (h : c.NamesAvoid chars) :
    c.TypeNamesAvoid chars :=
  fun d hd => (h d hd).1

theorem Text.avoids_repr {chars : List Char} (h : chars.any Char.isDigit = false) (n : Nat) :
    Avoids chars n.repr := by
  intro x hx hmem
  rw [Nat.toList_repr] at hx
  have hdigit : x.isDigit = true := Nat.isDigit_of_mem_toDigits (by decide) (by decide) hx
  have hany : chars.any Char.isDigit = true := List.any_eq_true.mpr ⟨x, hmem, hdigit⟩
  rw [h] at hany
  cases hany

namespace Descriptor

variable {c c' : Catalog} {d d' : Descriptor}

theorem From.definition_mem (hd : d.From c) : d.definition ∈ c.items :=
  NameTable.mem_of_find? hd.listed

theorem From.definition_eq (hd : d.From c) (hd' : d'.From c) (h : d.name = d'.name) :
    d.definition = d'.definition := by
  have hlisted := hd.listed
  rw [h, hd'.listed] at hlisted
  exact (Option.some.inj hlisted).symm

theorem From.name_avoids {chars : List Char} (hc : c.TypeNamesAvoid chars) (hd : d.From c) :
    Avoids chars d.name :=
  hc d.definition hd.definition_mem

theorem fullName_of_nil (h : d.arguments = []) : d.fullName = d.name := by
  simp [fullName, h]

theorem fullName_of_ne_nil (h : d.arguments ≠ []) :
    d.fullName = d.name ++ ("`" ++ d.arity.repr) := by
  simp [fullName, h, String.append_assoc]

theorem From.fullName_avoids {chars : List Char} (hc : c.TypeNamesAvoid chars)
    (hmark : Avoids chars "`") (hdigit : chars.any Char.isDigit = false) (hd : d.From c) :
    Avoids chars d.fullName := by
  by_cases hargs : d.arguments = []
  · rw [fullName_of_nil hargs]
    exact hd.name_avoids hc
  · rw [fullName_of_ne_nil hargs]
    exact (hd.name_avoids hc).append (hmark.append (avoids_repr hdigit d.arity))

/-- Behind the name in a full name stands nothing or the grave accent. -/
theorem exists_toList_fullName (d : Descriptor) :
    ∃ t, Stopped ['\x60'] t ∧ d.fullName.toList = d.name.toList ++ t ∧
      (t = [] ↔ d.arguments = []) := by
  by_cases hargs : d.arguments = []
  · exact ⟨[], stopped_nil _, by simp [fullName_of_nil hargs], by simp [hargs]⟩
  · refine ⟨'\x60' :: d.arity.repr.toList, by simp, ?_, by simp [hargs]⟩
    rw [fullName_of_ne_nil hargs, String.toList_append, String.toList_append]
    rfl

theorem From.eq_of_fullName_eq (hc : c.NamesAvoid ['\x60']) (hc' : c'.NamesAvoid ['\x60'])
    (hd : d.From c) (hd' : d'.From c') (h : d.fullName = d'.fullName) :
    d.name = d'.name ∧ (d.arguments = [] ↔ d'.arguments = []) := by
  obtain ⟨t, ht, htext, hnil⟩ := exists_toList_fullName d
  obtain ⟨t', ht', htext', hnil'⟩ := exists_toList_fullName d'
  rw [h, htext'] at htext
  obtain ⟨hname, rfl⟩ :=
    (hd'.name_avoids hc'.types).append_inj (hd.name_avoids hc.types) ht' ht htext
  exact ⟨hname.symm, hnil.symm.trans hnil'⟩

end Descriptor

end ShapeLedger
