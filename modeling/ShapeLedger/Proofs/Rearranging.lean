import ShapeLedger.Proofs.Resaving

/-!
Ledgers whose files were moved. An entry names its type and its version in its
own file, and loading takes it up only in a place that says the same. So files
may be taken away, copied, renamed and put into other directories: as long as
each holds what a save wrote, what is loaded of a type is a beginning of the
history that was saved.
-/

namespace ShapeLedger

open FileTree (Route)

namespace FileTree

/-- Somewhere in the tree stands a file with that content. -/
inductive Contains (content : ByteArray) : FileTree → Prop
  | file : Contains content (.file content)
  | directory {entries : List (String × FileTree)} {u : String × FileTree} (entry : u ∈ entries)
    (below : Contains content u.2) : Contains content (.directory entries)

variable {content other : ByteArray} {entries : List (String × FileTree)}

theorem contains_file_iff : (FileTree.file other).Contains content ↔ content = other := by
  constructor
  · rintro ⟨⟩
    rfl
  · rintro rfl
    exact .file

theorem contains_directory_iff :
    (FileTree.directory entries).Contains content ↔ ∃ u ∈ entries, u.2.Contains content := by
  constructor
  · rintro (_ | ⟨entry, below⟩)
    exact ⟨_, entry, below⟩
  · rintro ⟨u, entry, below⟩
    exact .directory entry below

end FileTree

namespace Ledger

variable {root directory : Route} {typeName : String} {files entries : List (String × FileTree)}
  {t t' : FileTree} {q r s : Registry} {n : String} {e : Entry} {x : History}

/-! ### What a file holds wherever it stands -/

theorem exists_content_of_entryIn? {file : FileTree} (h : entryIn? file = some e) :
    ∃ content, file = .file content := by
  cases file with
  | file content => exact ⟨content, rfl⟩
  | directory files => cases h

/-- Every file in the tree holds an entry of the registry. -/
def HoldsOnly (q : Registry) (t : FileTree) : Prop :=
  ∀ content, t.Contains content →
    ∃ e, entryIn? (.file content) = some e ∧ e ∈ q.entries e.typeName

/-- Below the root stand only files of entries that were saved. -/
theorem Stands.holdsOnly (h : Stands root entries q) : HoldsOnly q (.directory entries) := by
  intro content hcontent
  obtain ⟨u, hu, hcontent⟩ := FileTree.contains_directory_iff.mp hcontent
  obtain ⟨n, files, rfl, hholds⟩ := h.directories u hu
  obtain ⟨f, hf, hcontent⟩ := FileTree.contains_directory_iff.mp hcontent
  obtain ⟨version, hplain⟩ := hholds.plain f hf
  obtain ⟨read, hread, -⟩ := readHistory_eq_ok_iff.mp hholds.history
  obtain ⟨os, hos, -⟩ := readEntries_eq_ok_iff.mp hread
  obtain ⟨o, -, ho⟩ := exists_mem_of_forall₂_left hos hf
  obtain ⟨e, rfl, -⟩ := exists_of_entryOf? ho (hplain ▸ version?_fileName version)
  obtain ⟨-, -, hentry, hname⟩ := entryOf?_eq_some_iff.mp ho
  obtain ⟨content', hfile⟩ := exists_content_of_entryIn? hentry
  rw [hfile] at hcontent hentry
  rw [FileTree.contains_file_iff.mp hcontent]
  refine ⟨e, hentry, ?_⟩
  rw [hname]
  exact (mem_of_readHistory hholds.history).mpr ⟨f, hf, ho⟩

/-! ### What is loaded from such files -/

/-- The history in a directory is a beginning of the one of the registry. -/
theorem HoldsOnly.prefix_of_historyOf? (h : HoldsOnly q (.directory entries))
    (hq : Numbered (q.entries x.typeName)) {u : String × FileTree} (hu : u ∈ entries)
    (hx : historyOf? root u = .ok (some x)) : x.entries <+: q.entries x.typeName := by
  obtain ⟨files, htype, hread, -⟩ := historyOf?_eq_some_iff.mp hx
  obtain ⟨-, -, -, hnumbered⟩ := readHistory_eq_ok_iff.mp hread
  refine hnumbered.prefix_of_subset hq fun e he => ?_
  obtain ⟨f, hf, hfile⟩ := (mem_of_readHistory hread).mp he
  obtain ⟨-, -, hentry, hname⟩ := entryOf?_eq_some_iff.mp hfile
  obtain ⟨content, hcontent⟩ := exists_content_of_entryIn? hentry
  have hcontains : (FileTree.directory entries).Contains content := by
    refine .directory hu ?_
    rw [(typeDirectory?_eq_some_iff.mp htype).1]
    exact .directory hf (hcontent ▸ .file)
  obtain ⟨e', hentry', hmem⟩ := h content hcontains
  rw [← hcontent, hentry] at hentry'
  cases hentry'
  rwa [hname] at hmem

/-- So is what is loaded of a type, in whatever order the directories are listed. -/
theorem HoldsOnly.prefix_of_load (h : HoldsOnly q t') (hq : ∀ n, Numbered (q.entries n))
    (hroot : t.find? root = some t') (hload : load root t = .ok r) (n : String) :
    r.entries n <+: q.entries n := by
  by_cases hn : r.entries n = []
  · rw [hn]
    exact List.nil_prefix
  obtain ⟨x, hx, rfl, hentries⟩ := Registry.exists_of_entries_ne_nil hn
  rw [← hentries]
  rw [load, hroot] at hload
  cases t' with
  | file content => cases hload
  | directory entries =>
    obtain ⟨hs, hfound, hr⟩ := loadInto_eq_ok_iff.mp hload
    obtain ⟨u, hu, hread⟩ := (hfound.mem_iff x).mp (mem_of_loaded hr hx)
    exact h.prefix_of_historyOf? (hq _) hu hread

/-- From files that a save wrote, in whatever places, at most beginnings of the histories are
loaded that were saved. -/
theorem prefix_of_rearranged {other : Route} {u saved placed : FileTree}
    (hroot : t.find? root = some FileTree.empty) (hs : s.Reachable) (hsaved : Saved root s t t')
    (hwritten : t'.find? root = some saved) (hplaced : u.find? other = some placed)
    (hcontents : ∀ content, placed.Contains content → saved.Contains content)
    (hload : load other u = .ok r) :
    (∀ n ∈ r.names, n ∈ s.names) ∧ ∀ n,
      (∀ v e, r.version? n v = some e → s.held? n v = some e) ∧
        ((s.entries n).length ≤ UInt32.size → r.entries n <+: s.entries n) := by
  obtain ⟨entries, q, hfind, hstands, hq⟩ :=
    (stands_empty root).saved hroot hs.sound hsaved
  cases hwritten.symm.trans hfind
  have hplaced' : HoldsOnly q placed := fun content hcontent =>
    hstands.holdsOnly content (hcontents content hcontent)
  have hbegins := hplaced'.prefix_of_load hstands.numbered hplaced hload
  refine ⟨fun n hn => ?_, fun n => ⟨fun v e he => ?_, fun hbounded => ?_⟩⟩
  · rw [Registry.mem_names_iff (sound_of_load hload)] at hn
    rw [Registry.mem_names_iff hs.sound]
    intro hnil
    have hnone := hbegins n
    rw [hq, hnil] at hnone
    exact hn (List.prefix_nil.mp hnone)
  · obtain ⟨hv, rfl⟩ := List.getElem?_eq_some_iff.mp he
    have hplace := List.prefix_iff_getElem?.mp (hbegins n) _ hv
    rw [hq, getElem?_foldl_place (hs.sound.numberedFrom n) (Nat.zero_le _)] at hplace
    rw [Registry.held?_eq_lastAt]
    simpa using hplace
  · have hsame := foldl_place_eq (hs.sound.numbered_of_le hbounded) List.nil_prefix
    have hfirst := hbegins n
    rwa [hq, Registry.entries_empty, hsame] at hfirst

/-! ### A file with another name and one out of place -/

/-- The first version has another name that is read as its own, and the second version stands
beside the directory of its type. -/
def rearranged : List (String × FileTree) :=
  [("v1.json", .file secondEntry.text.toByteArray),
    ("41", .directory [("v+0.json", .file firstEntry.text.toByteArray)])]

theorem load_rearranged : load ledgerRoot (ledgerWith rearranged) = .ok Registry.recordedOnce := by
  have hversion : version? "v+0.json" = some firstEntry.version := by decide +kernel
  have hread := historyOf?_single (e := firstEntry) typeName?_41 (by decide) rfl hversion
    (by decide)
  have hfile : historyOf? ledgerRoot ("v1.json", .file secondEntry.text.toByteArray) =
      .ok none := rfl
  exact loadInto_eq_ok_iff.mpr ⟨_, .cons hfile (.cons hread .nil), rfl⟩

/-- Two versions were saved, and the first of them is loaded. -/
theorem prefix_of_rearranged_recordedTwice : ∃ t' saved placed,
    emptyLedger.find? ledgerRoot = some FileTree.empty ∧ Registry.Reachable recordedTwice ∧
    Saved ledgerRoot recordedTwice emptyLedger t' ∧ t'.find? ledgerRoot = some saved ∧
    (ledgerWith rearranged).find? ledgerRoot = some placed ∧
    (∀ content, placed.Contains content → saved.Contains content) ∧
    load ledgerRoot (ledgerWith rearranged) = .ok Registry.recordedOnce ∧
    Registry.recordedOnce.entries "A" <+: recordedTwice.entries "A" := by
  have hroot : emptyLedger.find? ledgerRoot = some FileTree.empty := rfl
  have hreachable : Registry.Reachable recordedTwice := reachable_recorded _ (by simp)
  have hcontents : ∀ content, (FileTree.directory rearranged).Contains content →
      (FileTree.directory [("41", .directory
        [("v0.json", .file firstEntry.text.toByteArray),
          ("v1.json", .file secondEntry.text.toByteArray)])]).Contains content := by
    intro content hcontent
    simp only [rearranged, FileTree.contains_directory_iff, List.mem_cons, List.not_mem_nil,
      or_false, exists_eq_or_imp, exists_eq_left, FileTree.contains_file_iff] at hcontent ⊢
    exact hcontent.symm
  have hbounded : (recordedTwice.entries "A").length ≤ UInt32.size :=
    Nat.le_of_lt (length_recordedTwice_lt "A")
  have hsaved := saved_recordedTwice (.inl rfl)
  obtain ⟨-, hentries⟩ := prefix_of_rearranged hroot hreachable hsaved
    (find?_ledgerWith _) (find?_ledgerWith _) hcontents load_rearranged
  exact ⟨_, _, _, hroot, hreachable, hsaved, find?_ledgerWith _, find?_ledgerWith _,
    hcontents, load_rearranged, (hentries "A").2 hbounded⟩

end Ledger

end ShapeLedger
