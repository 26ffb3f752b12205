import ShapeLedger.Proofs.Overlay

/-!
When the directory of a type is accepted. Only the files that are named for
versions count. Each of them must be filed in its place, that is, hold an entry
of the type and of the version in its name, and their versions must be those
from zero on, each once. Sorting them puts every entry at the place of its
number exactly then, so a gap and a repetition are both found by comparing
versions with places. The order in which the files are listed is forgotten.
-/

namespace ShapeLedger

open FileTree (Route)

namespace Ledger

variable {directory : Route} {typeName : String} {files files' : List (String × FileTree)}
  {es read : List Entry} {f : String × FileTree} {v : UInt32}

/-- A file can be read, and the entry in it names the type and holds the version. -/
structure Filed (directory : Route) (typeName : String) (f : String × FileTree) (v : UInt32)
    (e : Entry) : Prop where
  allowed : (directory.join f.1).isAllowed = true
  entry : entryIn? f.2 = some e
  typeName : e.typeName = typeName
  version : e.version = v

/-- The files that are named for versions are filed in their places, and their versions are those
below some number, each once. -/
structure Whole (directory : Route) (typeName : String) (files : List (String × FileTree)) :
    Prop where
  filed : ∀ f ∈ files, ∀ v, NamedFor f.1 v → ∃ e, Filed directory typeName f v e
  versions : ∃ k, ((files.filterMap fun f => version? f.1).map UInt32.toNat).Perm (List.range k)

/-! ### Files one by one -/

theorem readEntry_eq_ok_iff_filed {e : Entry} :
    readEntry (directory.join f.1) typeName v f.2 = .ok e ↔ Filed directory typeName f v e := by
  rw [readEntry_eq_ok_iff]
  exact ⟨fun ⟨allowed, entry, name, version⟩ => ⟨allowed, entry, name, version⟩,
    fun h => ⟨h.allowed, h.entry, h.typeName, h.version⟩⟩

theorem entryOf?_of_not_named (h : ∀ v, ¬ NamedFor f.1 v) :
    entryOf? directory typeName f = .ok none := by
  have hnone : version? f.1 = none :=
    Option.eq_none_iff_forall_ne_some.mpr fun v hv => h v (version?_eq_some_iff.mp hv)
  rw [entryOf?, hnone]

theorem entryOf?_of_named (h : NamedFor f.1 v) {o : Option Entry} :
    entryOf? directory typeName f = .ok o ↔
      ∃ e, o = some e ∧ Filed directory typeName f v e := by
  rw [entryOf?, version?_eq_some_iff.mpr h]
  simp only [map_eq_ok_iff, readEntry_eq_ok_iff_filed]
  constructor
  · rintro ⟨e, he, rfl⟩
    exact ⟨e, rfl, he⟩
  · rintro ⟨e, rfl, he⟩
    exact ⟨e, he, rfl⟩

theorem exists_entryOf?_iff : (∃ o, entryOf? directory typeName f = .ok o) ↔
    ∀ v, NamedFor f.1 v → ∃ e, Filed directory typeName f v e := by
  constructor
  · rintro ⟨o, ho⟩ v hv
    obtain ⟨e, -, he⟩ := (entryOf?_of_named hv).mp ho
    exact ⟨e, he⟩
  · intro h
    by_cases hnamed : ∃ v, NamedFor f.1 v
    · obtain ⟨v, hv⟩ := hnamed
      obtain ⟨e, he⟩ := h v hv
      exact ⟨some e, (entryOf?_of_named hv).mpr ⟨e, rfl, he⟩⟩
    · exact ⟨none, entryOf?_of_not_named (not_exists.mp hnamed)⟩

/-- All entries are read if each file that is named for a version is filed in its place. -/
theorem exists_readEntries_iff : (∃ read, readEntries directory typeName files = .ok read) ↔
    ∀ f ∈ files, ∀ v, NamedFor f.1 v → ∃ e, Filed directory typeName f v e := by
  induction files with
  | nil => simp [readEntries]
  | cons f files ih =>
    rw [List.forall_mem_cons, ← exists_entryOf?_iff, ← ih]
    constructor
    · rintro ⟨_, h⟩
      obtain ⟨o, rest, ho, hrest, -⟩ := readEntries_cons_eq_ok_iff.mp h
      exact ⟨⟨o, ho⟩, rest, hrest⟩
    · rintro ⟨⟨o, ho⟩, rest, hrest⟩
      exact ⟨_, readEntries_cons_eq_ok_iff.mpr ⟨o, rest, ho, hrest, rfl⟩⟩

/-- Files that are not named for versions are passed over. -/
theorem readEntries_filter (directory : Route) (typeName : String)
    (files : List (String × FileTree)) :
    readEntries directory typeName files =
      readEntries directory typeName (files.filter fun f => (version? f.1).isSome) := by
  induction files with
  | nil => rfl
  | cons f files ih =>
    obtain ⟨name, file⟩ := f
    rw [readEntries]
    cases hversion : version? name with
    | none =>
      rw [List.filter_cons_of_neg (by simp [hversion])]
      exact ih
    | some v =>
      rw [List.filter_cons_of_pos (by simp [hversion]), readEntries, hversion, ih]

/-! ### Versions and places -/

theorem numbered_iff_map_version : Numbered es ↔
    es.map (fun e => e.version.toNat) = List.range es.length := by
  constructor
  · intro h
    refine List.ext_getElem (by simp) fun i hi _ => ?_
    rw [List.length_map] at hi
    rw [List.getElem_map, List.getElem_range]
    exact h i _ (List.getElem?_eq_getElem hi)
  · intro h i e he
    have hi : i < es.length := (List.getElem?_eq_some_iff.mp he).1
    have hversion : (es.map fun e => e.version.toNat)[i]? = some e.version.toNat := by
      rw [List.getElem?_map, he, Option.map_some]
    rw [h, List.getElem?_range hi] at hversion
    exact (Option.some.inj hversion).symm

/-- Entries whose versions are the numbers below `k`, each once, are sorted to the places of their
versions. -/
theorem numbered_mergeSort {k : Nat}
    (h : (read.map fun e => e.version.toNat).Perm (List.range k)) :
    Numbered (read.mergeSort fun a b => decide (a.version ≤ b.version)) := by
  have hperm := ((List.mergeSort_perm read fun a b => decide (a.version ≤ b.version)).map
    fun e => e.version.toNat).trans h
  have hsorted := List.pairwise_map.mpr (pairwise_mergeSort_version read)
  have hrange : (List.range k).Pairwise (· ≤ ·) := List.pairwise_lt_range.imp Nat.le_of_lt
  -- Of one collection of numbers there is only one ascending list.
  have hsame := hperm.eq_of_pairwise (fun a b _ _ => Nat.le_antisymm) hsorted hrange
  have hlength := congrArg List.length hsame
  rw [List.length_map, List.length_range] at hlength
  rw [numbered_iff_map_version, hsame, hlength]

theorem exists_readHistory_iff_whole :
    (∃ es, readHistory directory typeName files = .ok es) ↔ Whole directory typeName files := by
  -- Entries that are read hold the versions in the names of their files, so what is counted in
  -- the files is sorted in the entries.
  constructor
  · rintro ⟨es, h⟩
    obtain ⟨read, hread, hperm, hnumbered⟩ := readHistory_eq_ok_iff.mp h
    refine ⟨exists_readEntries_iff.mp ⟨read, hread⟩, es.length, ?_⟩
    rw [← map_version_of_readEntries hread, List.map_map, ← numbered_iff_map_version.mp hnumbered]
    exact hperm.map _
  · rintro ⟨hfiled, k, hversions⟩
    obtain ⟨read, hread⟩ := exists_readEntries_iff.mpr hfiled
    rw [← map_version_of_readEntries hread, List.map_map] at hversions
    exact ⟨_, readHistory_eq_ok_iff.mpr
      ⟨read, hread, (List.mergeSort_perm _ _).symm, numbered_mergeSort hversions⟩⟩

theorem mem_of_readHistory_iff_filed (h : readHistory directory typeName files = .ok es)
    {e : Entry} :
    e ∈ es ↔ ∃ f ∈ files, ∃ v, NamedFor f.1 v ∧ Filed directory typeName f v e := by
  rw [mem_of_readHistory h]
  refine exists_congr fun f => and_congr_right fun _ => ?_
  constructor
  · intro he
    obtain ⟨hversion, hallowed, hentry, hname⟩ := entryOf?_eq_some_iff.mp he
    exact ⟨_, version?_eq_some_iff.mp hversion, hallowed, hentry, hname, rfl⟩
  · rintro ⟨v, hv, he⟩
    exact (entryOf?_of_named hv).mpr ⟨e, rfl, he⟩

/-- The directory of a type is accepted exactly if the files that are named for versions hold all
versions below some number, each once and in its place. What is read is their entries in the order
of the versions, in whatever order the files are listed, and other files are passed over. -/
theorem accepted_iff_whole (directory : Route) (typeName : String)
    (files : List (String × FileTree)) :
    (∀ name v, version? name = some v ↔ NamedFor name v) ∧
      ((∃ es, readHistory directory typeName files = .ok es) ↔ Whole directory typeName files) ∧
      readHistory directory typeName files =
        readHistory directory typeName (files.filter fun f => (version? f.1).isSome) ∧
      ∀ es, readHistory directory typeName files = .ok es →
        es.map (fun e => e.version.toNat) = List.range es.length ∧
          (files.filterMap fun f => version? f.1).Perm (es.map Entry.version) ∧
          (∀ e, e ∈ es ↔ ∃ f ∈ files, ∃ v, NamedFor f.1 v ∧ Filed directory typeName f v e) ∧
          ∀ files', files.Perm files' → readHistory directory typeName files' = .ok es := by
  refine ⟨fun _ _ => version?_eq_some_iff, exists_readHistory_iff_whole, ?_, fun es h => ?_⟩
  · rw [readHistory, readEntries_filter, readHistory]
  · obtain ⟨read, hread, hperm, hnumbered⟩ := readHistory_eq_ok_iff.mp h
    refine ⟨numbered_iff_map_version.mp hnumbered, ?_, fun e => mem_of_readHistory_iff_filed h,
      fun files' hfiles => (readHistory_perm hfiles).mp h⟩
    rw [← map_version_of_readEntries hread]
    exact hperm.map _

/-- The files of two versions under unusual names, the second version first, and a file that is no
version's. -/
def oddlyNamed : List (String × FileTree) :=
  [("v+1.json", .file secondEntry.text.toByteArray), ("v.json", .empty),
    ("v00.json", .file firstEntry.text.toByteArray)]

theorem whole_oddlyNamed : Whole (ledgerRoot.join "41") "A" oddlyNamed ∧
    readHistory (ledgerRoot.join "41") "A" oddlyNamed = .ok [firstEntry, secondEntry] ∧
      readHistory (ledgerRoot.join "41") "A" oddlyNamed.reverse = .ok [firstEntry, secondEntry] := by
  have hone : version? "v+1.json" = some secondEntry.version := by decide +kernel
  have hnone : version? "v.json" = none := by decide +kernel
  have hzero : version? "v00.json" = some firstEntry.version := by decide +kernel
  have hother : entryOf? (ledgerRoot.join "41") "A" ("v.json", .empty) = .ok none := by
    rw [entryOf?, hnone]
  have hread : readEntries (ledgerRoot.join "41") "A" oddlyNamed =
      .ok [secondEntry, firstEntry] :=
    readEntries_cons_eq_ok_iff.mpr ⟨_, _, entryOf?_text hone (by decide) rfl,
      readEntries_cons_eq_ok_iff.mpr ⟨_, _, hother,
        readEntries_cons_eq_ok_iff.mpr ⟨_, [], entryOf?_text hzero (by decide) rfl, rfl, rfl⟩,
        rfl⟩, rfl⟩
  have hhistory : readHistory (ledgerRoot.join "41") "A" oddlyNamed =
      .ok [firstEntry, secondEntry] :=
    readHistory_eq_ok_iff.mpr ⟨_, hread, .swap _ _ _, numbered_iff_map_version.mpr (by decide)⟩
  obtain ⟨-, hwhole, -, hresult⟩ := accepted_iff_whole (ledgerRoot.join "41") "A" oddlyNamed
  exact ⟨hwhole.mp ⟨_, hhistory⟩, hhistory,
    (hresult _ hhistory).2.2.2 _ (List.reverse_perm _).symm⟩

end Ledger

end ShapeLedger
