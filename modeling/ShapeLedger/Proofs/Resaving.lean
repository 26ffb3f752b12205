import ShapeLedger.Proofs.Overlay

/-!
Saving what was loaded into the place that it was loaded from. A save writes
each version into the file of its usual name. If the version was read from a
file of another name, such as one with a zero before the number, then two files
hold it afterwards, and the history is refused. If there are no such files,
each history that is saved leaves the registry as it is loaded, so the same one
is loaded again.
-/

namespace ShapeLedger

open FileTree (Route put filesIn)

/-- No directory of the tree gives one name to two of its entries. -/
inductive FileTree.Distinct : FileTree → Prop
  | file (content : ByteArray) : Distinct (.file content)
  | directory {entries : List (String × FileTree)} (names : (entries.map Prod.fst).Nodup)
    (below : ∀ e ∈ entries, Distinct e.2) : Distinct (.directory entries)

theorem FileTree.Distinct.at? {t u : FileTree} {l : Location} (h : t.Distinct)
    (hl : t.at? l = some u) : u.Distinct := by
  induction l generalizing t with
  | nil =>
    cases hl
    exact h
  | cons name l ih =>
    cases h with
    | file content => cases hl
    | directory names below =>
      obtain ⟨v, hv, hat⟩ := Option.bind_eq_some_iff.mp hl
      exact ih (below _ (mem_of_lookup hv)) hat

theorem FileTree.Distinct.find? {t u : FileTree} {r : Route} (h : t.Distinct)
    (hr : t.find? r = some u) : u.Distinct := by
  rw [FileTree.find?] at hr
  split at hr
  · obtain ⟨l, -, hat⟩ := Option.bind_eq_some_iff.mp hr
    exact h.at? hat
  · cases hr

namespace Ledger

variable {root : Route} {entries : List (String × FileTree)} {t t' : FileTree}
  {r r' : Registry} {h : History} {old : List Entry}

/-! ### What was loaded -/

theorem readable_of_relistedAt {u : FileTree} (hroot : t.find? root = some (.directory entries))
    (hrelisted : t.RelistedAt root u) (hload : load root u = .ok r') :
    ∀ v ∈ entries, ∃ o, historyOf? root v = .ok o := by
  obtain ⟨v, v', hv, hv', hsame⟩ := hrelisted
  rw [hroot, Option.some.injEq] at hv
  subst hv
  have hentries := hsame
  cases hsame with
  | @directory _ _ entries' order names below =>
    rw [load, hv'] at hload
    obtain ⟨hs, hfound, -⟩ := loadInto_eq_ok_iff.mp hload
    intro x hx
    obtain ⟨y, hy, hread⟩ := (exists_of_relisted root hentries).1 x hx
    obtain ⟨o, ho⟩ := hfound.readable y hy
    exact ⟨o, (hread o).mpr ho⟩

/-- The history in the usual directory of a type, empty if there is none. -/
theorem exists_readHistory (hreadable : ∀ u ∈ entries, ∃ o, historyOf? root u = .ok o)
    (hfits : Fits root entries h) (hname : h.typeName ≠ "") :
    ∃ old, readHistory (root.join (directoryName h.typeName)) h.typeName
        (filesIn entries (directoryName h.typeName)) = .ok old ∧
      Found root ((entries.lookup (directoryName h.typeName)).toList.map
        (directoryName h.typeName, ·)) (if old = [] then [] else [⟨h.typeName, old⟩]) := by
  rw [filesIn]
  cases hlookup : entries.lookup (directoryName h.typeName) with
  | none => exact ⟨[], readHistory_nil, .nil⟩
  | some u =>
    cases u with
    | file content => exact absurd hlookup (hfits.free content)
    | directory files =>
      obtain ⟨o, ho⟩ := hreadable _ (FileTree.mem_of_lookup hlookup)
      have hfirst := ho
      rw [historyOf?_directory, if_pos hfits.directory, typeName?_directoryName hname] at ho
      obtain ⟨old, hold, rfl⟩ := map_eq_ok_iff.mp ho
      refine ⟨old, hold, ?_⟩
      have hfound := Found.cons hfirst .nil
      split
      · rwa [if_pos ‹_›] at hfound
      · rwa [if_neg ‹_›] at hfound

/-! ### What is saved over it -/

/-- Below the root no directory has two entries of one name, and in the directories of the types of
the registry no version has a file of another name than the usual one. -/
structure Resavable (entries : List (String × FileTree)) (r : Registry) : Prop where
  nodup : (entries.map Prod.fst).Nodup
  below : ∀ name, ((filesIn entries name).map Prod.fst).Nodup
  unaliased : ∀ h ∈ r.items, ∀ e ∈ h.entries,
    Unaliased (filesIn entries (directoryName h.typeName)) e.version

theorem Resavable.withHistory (hres : Resavable entries r) (h : History) :
    Resavable (withHistory entries h) r := by
  refine ⟨FileTree.nodup_put hres.nodup _ _, fun name => ?_, fun x hx e he => ?_⟩
  · rw [filesIn_withHistory]
    split
    · exact nodup_withEntries (hres.below name) _
    · exact hres.below name
  · rw [filesIn_withHistory]
    split
    · exact unaliased_withEntries_iff.mpr (hres.unaliased x hx e he)
    · exact hres.unaliased x hx e he

/-- The directory of a type after it was saved. -/
theorem Resavable.historyOf?_withEntries (hres : Resavable entries r) (hr : r.Sound)
    (hmem : h ∈ r.items) (hfits : Fits root entries h)
    (hold : readHistory (root.join (directoryName h.typeName)) h.typeName
      (filesIn entries (directoryName h.typeName)) = .ok old) :
    historyOf? root (directoryName h.typeName, .directory
        (withEntries (filesIn entries (directoryName h.typeName)) h.entries)) =
      .ok (some ⟨h.typeName, h.entries.foldl place old⟩) := by
  have hsound := hr h hmem
  have hread := readHistory_withEntries hold (hres.below _) (hres.unaliased h hmem) hsound.owned
    hsound.numberedFrom (Nat.zero_le _) hfits.files
  rw [historyOf?_directory, if_pos hfits.directory, typeName?_directoryName hsound.named]
  simp only [hread, Except.map, if_neg (foldl_place_ne_nil (.inr hsound.nonempty))]

/-- What is loaded of a type is the last that is found. -/
theorem eq_entries_of_last {xs ys : List History}
    (hr : (xs ++ [History.mk h.typeName old] ++ ys).foldl NameTable.insert NameTable.empty = r)
    (hmem : h ∈ r.items) (hlater : ∀ y ∈ ys, y.typeName ≠ h.typeName) : old = h.entries := by
  have hlast := find?_reverse_of_loaded hr hmem
  have hnone : ys.reverse.find? (fun x => x.typeName = h.typeName) = none :=
    List.find?_eq_none.mpr fun x hx => by simpa using hlater x (List.mem_reverse.mp hx)
  rw [List.reverse_append, List.find?_append, hnone, List.reverse_append,
    List.reverse_singleton, List.singleton_append, Option.none_or,
    List.find?_cons_of_pos (by simp)] at hlast
  rw [← Option.some.inj hlast]

/-- The registry is loaded again after one of its histories was saved. -/
theorem Resavable.loadInto_withHistory (hres : Resavable entries r) (hr : r.Sound)
    (hload : loadInto root NameTable.empty entries = .ok r) (hmem : h ∈ r.items)
    (hfits : Fits root entries h) :
    loadInto root NameTable.empty (Ledger.withHistory entries h) = .ok r := by
  obtain ⟨hs, hfound, -⟩ := loadInto_eq_ok_iff.mp hload
  obtain ⟨old, hold, hformer⟩ := exists_readHistory hfound.readable hfits (hr h hmem).named
  have hnew := hres.historyOf?_withEntries hr hmem hfits hold
  obtain ⟨before, behind, hentries, hput⟩ :=
    FileTree.exists_put_eq (directoryName h.typeName) entries
  have hreadable := hfound.readable
  rw [hentries] at hreadable
  have hbefore : ∀ u ∈ before, ∃ o, historyOf? root u = .ok o :=
    fun u hu => hreadable u (by simp [hu])
  have hbehind : ∀ u ∈ behind, ∃ o, historyOf? root u = .ok o :=
    fun u hu => hreadable u (by simp [hu])
  obtain ⟨xs, hxs⟩ := exists_found hbefore
  obtain ⟨ys, hys⟩ := exists_found hbehind
  have hwhole := found_append_iff.mpr
    ⟨_, _, found_append_iff.mpr ⟨_, _, hxs, hformer, rfl⟩, hys, rfl⟩
  rw [← hentries] at hwhole
  have hlist := Except.ok.inj ((loadInto_eq_ok_iff.mpr ⟨_, hwhole, rfl⟩).symm.trans hload)
  have hafter : Found root
      (before ++ (directoryName h.typeName, .directory
        (withEntries (filesIn entries (directoryName h.typeName)) h.entries)) :: behind)
      (xs ++ ⟨h.typeName, h.entries.foldl place old⟩ :: ys) :=
    found_append_iff.mpr ⟨_, _, hxs, .cons hnew hys, rfl⟩
  rw [Ledger.withHistory, hput, loadInto_eq_ok_iff]
  refine ⟨_, hafter, Eq.trans ?_ hlist⟩
  refine NameTable.ofList_replace (fun c hc => ?_) fun hlater => ?_
  · split at hc
    · cases hc
    · rw [List.mem_singleton.mp hc]
  · -- No later directory has a history of the type, so it is the one that was loaded.
    have hsame : h.entries.foldl place old = h.entries := by
      refine foldl_place_eq_of_former (numbered_of_loadInto hload hmem) fun hnil => ?_
      rw [if_neg hnil] at hlist
      exact eq_entries_of_last hlist hmem hlater
    rw [hsame, NameTable.ofList, hlist]
    exact NameTable.find?_of_mem hmem

theorem Loads.eq_entries_of_found (hloads : Loads root entries r) (hmem : h ∈ r.items)
    (hfound : Found root ((entries.lookup (directoryName h.typeName)).toList.map
      (directoryName h.typeName, ·)) [⟨h.typeName, old⟩]) : old = h.entries := by
  obtain ⟨u, hu, hread⟩ := (hfound.mem_iff _).mp List.mem_cons_self
  obtain ⟨v, hv, rfl⟩ := List.mem_map.mp hu
  have hentry := FileTree.mem_of_lookup (Option.mem_toList.mp hv)
  have hitem := (hloads.items _).mpr ⟨_, hentry, hread⟩
  rw [← NameTable.eq_of_nameOf_eq hitem hmem rfl]

/-- Its directories hold the registry as before, in whatever order they are listed. -/
theorem Loads.withHistory (hloads : Loads root entries r) (hres : Resavable entries r)
    (hr : r.Sound) (hmem : h ∈ r.items) (hfits : Fits root entries h) :
    Loads root (Ledger.withHistory entries h) r := by
  obtain ⟨old, hold, hformer⟩ := exists_readHistory hloads.readable hfits (hr h hmem).named
  have hnew := hres.historyOf?_withEntries hr hmem hfits hold
  have hsame : h.entries.foldl place old = h.entries := by
    refine foldl_place_eq_of_former (numbered_of_loadInto hloads.loadInto_eq hmem) fun hnil => ?_
    rw [if_neg hnil] at hformer
    exact hloads.eq_entries_of_found hmem hformer
  rw [hsame] at hnew
  constructor
  · intro u hu
    rcases (FileTree.mem_put hres.nodup).mp hu with rfl | ⟨hu, -⟩
    · exact ⟨_, hnew⟩
    · exact hloads.readable u hu
  · intro x
    constructor
    · intro hx
      obtain ⟨u, hu, hread⟩ := (hloads.items x).mp hx
      by_cases hname : u.1 = directoryName h.typeName
      · -- The directory that was replaced was that of the type.
        have htype := (exists_of_historyOf? hread).1
        rw [hname, typeName?_directoryName (hr h hmem).named, Option.some.injEq] at htype
        rw [NameTable.eq_of_nameOf_eq hx hmem htype.symm]
        exact ⟨_, (FileTree.mem_put hres.nodup).mpr (.inl rfl), hnew⟩
      · exact ⟨u, (FileTree.mem_put hres.nodup).mpr (.inr ⟨hu, hname⟩), hread⟩
    · rintro ⟨u, hu, hread⟩
      rcases (FileTree.mem_put hres.nodup).mp hu with rfl | ⟨hu, -⟩
      · rw [hnew] at hread
        cases hread
        exact hmem
      · exact (hloads.items x).mpr ⟨u, hu, hread⟩

theorem Resavable.loadInto_foldl_withHistory {hs : List History} (hres : Resavable entries r)
    (hr : r.Sound) (hload : loadInto root NameTable.empty entries = .ok r)
    (hfits : ∀ h ∈ hs, Fits root entries h) (hmem : ∀ h ∈ hs, h ∈ r.items) :
    loadInto root NameTable.empty (hs.foldl Ledger.withHistory entries) = .ok r := by
  refine (foldl_withHistory_preserves (P := fun entries => Resavable entries r ∧
    loadInto root NameTable.empty entries = .ok r) ⟨hres, hload⟩ hfits fun hh hfit hP => ?_).2
  exact ⟨hP.1.withHistory _, hP.1.loadInto_withHistory hr hP.2 (hmem _ hh) hfit⟩

theorem Loads.foldl_withHistory {hs : List History} (hloads : Loads root entries r)
    (hres : Resavable entries r) (hr : r.Sound) (hfits : ∀ h ∈ hs, Fits root entries h)
    (hmem : ∀ h ∈ hs, h ∈ r.items) : Loads root (hs.foldl Ledger.withHistory entries) r := by
  refine (foldl_withHistory_preserves (P := fun entries => Resavable entries r ∧
    Loads root entries r) ⟨hres, hloads⟩ hfits fun hh hfit hP => ?_).2
  exact ⟨hP.1.withHistory _, hP.2.withHistory hP.1 hr (hmem _ hh) hfit⟩

/-! ### What is refused afterwards -/

theorem filesIn_foldl_withHistory {hs : List History} {n : String} :
    filesIn (hs.foldl withHistory entries) (directoryName n) =
      withEntries (filesIn entries (directoryName n)) (entriesOf hs n) := by
  induction hs generalizing entries with
  | nil => rfl
  | cons h hs ih =>
    rw [List.foldl_cons, ih, filesIn_withHistory, entriesOf_cons]
    by_cases hname : h.typeName = n
    · rw [if_pos hname, if_pos (by rw [hname])]
      simp only [withEntries, List.foldl_append]
    · have hother : directoryName n ≠ directoryName h.typeName := fun hsame =>
        hname (directoryName_inj hsame.symm)
      rw [if_neg hname, if_neg hother]

/-- If everything can be read after a save, there were no files of other names before it. -/
theorem unaliased_of_readable {hs : List History} (hr : r.Sound) (hperm : hs.Perm r.items)
    (hfits : ∀ h ∈ hs, Fits root entries h)
    (hreadable : ∀ u ∈ hs.foldl withHistory entries, ∃ o, historyOf? root u = .ok o)
    (hmem : h ∈ r.items) {e : Entry} (he : e ∈ h.entries) :
    Unaliased (filesIn entries (directoryName h.typeName)) e.version := by
  have hfits' : Fits root (hs.foldl withHistory entries) h :=
    foldl_withHistory_preserves (P := fun entries => Fits root entries h)
      (hfits h (hperm.mem_iff.mpr hmem)) hfits fun _ hx hh => (fits_withHistory_iff hx).mpr hh
  obtain ⟨es, hread, -⟩ := exists_readHistory hreadable hfits' (hr h hmem).named
  rw [filesIn_foldl_withHistory, entriesOf_perm_items hperm, Registry.entries_of_mem hmem] at hread
  exact unaliased_withEntries_iff.mp
    (unaliased_of_readHistory hread (mem_names_withEntries.mpr (.inr ⟨e, he, rfl⟩)))

/-! ### The same registry again -/

/-- No file in the usual directory of a type of the registry holds one of its versions under
another name than the usual one. -/
def UsualNames (root : Route) (t : FileTree) (r : Registry) : Prop :=
  ∀ h ∈ r.items, ∀ files,
    t.find? (root.join (directoryName h.typeName)) = some (.directory files) →
      ∀ e ∈ h.entries, Unaliased files e.version

/-- No two directories below the root have different histories of one type. -/
def Unanimous (root : Route) (t : FileTree) : Prop :=
  ∀ entries, t.find? root = some (.directory entries) → ∀ u ∈ entries, ∀ v ∈ entries, ∀ x y,
    historyOf? root u = .ok (some x) → historyOf? root v = .ok (some y) →
      x.typeName = y.typeName → x = y

theorem usualNames_iff (hroot : t.find? root = some (.directory entries)) (hr : r.Sound)
    (hfits : ∀ h ∈ r.items, Fits root entries h) :
    UsualNames root t r ↔ ∀ h ∈ r.items, ∀ e ∈ h.entries,
      Unaliased (filesIn entries (directoryName h.typeName)) e.version := by
  refine forall₂_congr fun h hmem => ?_
  rw [FileTree.find?_join hroot (isName_directoryName (hr h hmem).named) (hfits h hmem).directory,
    filesIn]
  cases hlookup : entries.lookup (directoryName h.typeName) with
  | none => simp [Unaliased]
  | some u =>
    cases u with
    | file content => exact absurd hlookup ((hfits h hmem).free content)
    | directory files => simp

theorem loads_of_unanimous (hroot : t.find? root = some (.directory entries))
    (hload : loadInto root NameTable.empty entries = .ok r) (hunanimous : Unanimous root t) :
    Loads root entries r := by
  obtain ⟨hs, hfound, hr⟩ := loadInto_eq_ok_iff.mp hload
  refine ⟨hfound.readable, fun x => ⟨fun hx => ?_, ?_⟩⟩
  · exact (hfound.mem_iff x).mp (mem_of_loaded hr hx)
  · rintro ⟨u, hu, hread⟩
    have hx := (hfound.mem_iff x).mpr ⟨u, hu, hread⟩
    cases hfind : r.find? x.typeName with
    | none =>
      rw [← hr] at hfind
      exact absurd rfl (NameTable.find?_ofList_eq_none_iff.mp hfind x hx)
    | some y =>
      have hy := NameTable.mem_of_find? hfind
      obtain ⟨v, hv, hread'⟩ := (hfound.mem_iff y).mp (mem_of_loaded hr hy)
      have hname : x.typeName = y.typeName := (NameTable.nameOf_of_find? hfind).symm
      rw [hunanimous entries hroot u hu v hv x y hread hread' hname]
      exact hy

theorem resavable_of_distinct (hdistinct : t.Distinct)
    (hroot : t.find? root = some (.directory entries))
    (hunaliased : ∀ h ∈ r.items, ∀ e ∈ h.entries,
      Unaliased (filesIn entries (directoryName h.typeName)) e.version) :
    Resavable entries r := by
  cases hdistinct.find? hroot with
  | directory names below =>
    refine ⟨names, fun name => ?_, hunaliased⟩
    rw [filesIn]
    split
    · rename_i files hlookup
      cases below _ (FileTree.mem_of_lookup hlookup) with
      | directory names' _ => exact names'
    · exact List.nodup_nil

/-- A registry is loaded on a condition, and no other one. -/
theorem loaded_iff {x : Except Failure Registry} {P : Prop} (hP : ∀ r', x = .ok r' → P)
    (hx : P → x = .ok r) : ∀ r', x = .ok r' ↔ r' = r ∧ P := by
  intro r'
  constructor
  · intro h
    have hcondition := hP r' h
    rw [hx hcondition, Except.ok.injEq] at h
    exact ⟨h.symm, hcondition⟩
  · rintro ⟨rfl, h⟩
    exact hx h

/-- After what was loaded is saved again, either the same registry is loaded or none, and it is
loaded if no version that it has is in a file of an unusual name. The order in which the
directories are listed matters only if two of them disagree from the beginning. -/
theorem load_of_resaved (hdistinct : t.Distinct) (hload : load root t = .ok r)
    (hsaved : Saved root r t t') :
    (∀ r', load root t' = .ok r' ↔ r' = r ∧ UsualNames root t r) ∧
      (Unanimous root t → ∀ u, t'.RelistedAt root u →
        ∀ r', load root u = .ok r' ↔ r' = r ∧ UsualNames root t r) := by
  have hr := sound_of_load hload
  rw [load] at hload
  cases hroot : t.find? root with
  | none =>
    rw [hroot] at hload
    cases hload
    obtain ⟨hs, hperm, hperformed⟩ := hsaved
    cases hperm.eq_nil
    cases hperformed
    refine ⟨fun r' => ?_, fun _ u hrelisted => ?_⟩
    · rw [load, hroot, Except.ok.injEq, eq_comm]
      exact (and_iff_left (List.forall_mem_nil _)).symm
    · obtain ⟨v, -, hv, -⟩ := hrelisted
      rw [hroot] at hv
      cases hv
  | some v =>
    cases v with
    | file content =>
      rw [hroot] at hload
      cases hload
    | directory entries =>
      rw [hroot] at hload
      obtain ⟨hs, hperm, hfits, hfind⟩ := find?_of_saved hroot hr hsaved
      have husual := usualNames_iff hroot hr fun h hh => hfits h (hperm.mem_iff.mpr hh)
      -- A file of another name is still there, beside the one that was written.
      have hrefused (hreadable : ∀ u ∈ hs.foldl withHistory entries,
          ∃ o, historyOf? root u = .ok o) : UsualNames root t r :=
        husual.mpr fun h hmem e he => unaliased_of_readable hr hperm hfits hreadable hmem he
      have hresavable (h : UsualNames root t r) : Resavable entries r :=
        resavable_of_distinct hdistinct hroot (husual.mp h)
      have hmem : ∀ h ∈ hs, h ∈ r.items := fun h => hperm.mem_iff.mp
      constructor
      · rw [load, hfind]
        refine loaded_iff (fun r' hload' => ?_) fun h => ?_
        · obtain ⟨_, hfound, -⟩ := loadInto_eq_ok_iff.mp hload'
          exact hrefused hfound.readable
        · exact (hresavable h).loadInto_foldl_withHistory hr hload hfits hmem
      · rintro hunanimous u hrelisted
        refine loaded_iff (fun r' hload' => ?_) fun h => ?_
        · exact hrefused (readable_of_relistedAt hfind hrelisted hload')
        · have hloads := loads_of_unanimous hroot hload hunanimous
          exact (hloads.foldl_withHistory (hresavable h) hr hfits hmem).load_eq hfind hrelisted

/-! ### Directories and files of unusual names -/

def entryJ : Entry := ⟨"J", 0, "B-X", Digest.ofText "B-X", .epoch⟩

def recordedJ : Registry := .single entryJ

theorem items_recordedJ : recordedJ.items = [⟨"J", [entryJ]⟩] := rfl

def directoryJ : FileTree := .directory [("v0.json", .file entryJ.text.toByteArray)]

theorem directoryName_J : directoryName "J" = "4a" := by decide +kernel

theorem fileName_entryJ : fileName entryJ.version = "v0.json" := by decide +kernel

/-- A directory whose only file is for the first version. -/
theorem historyOf?_single {directory file : String} {e : Entry}
    (hname : typeName? directory = some e.typeName)
    (hallowed : (ledgerRoot.join directory).isAllowed = true) (hzero : e.version = 0)
    (hversion : version? file = some e.version)
    (hfile : ((ledgerRoot.join directory).join file).isAllowed = true) :
    historyOf? ledgerRoot (directory, .directory [(file, .file e.text.toByteArray)]) =
      .ok (some ⟨e.typeName, [e]⟩) := by
  have hread : readHistory (ledgerRoot.join directory) e.typeName
      [(file, .file e.text.toByteArray)] = .ok [e] := by
    refine readHistory_eq_ok_iff.mpr ⟨[e], ?_, .refl _, fun i x hx => ?_⟩
    · exact readEntries_cons_eq_ok_iff.mpr ⟨_, [], entryOf?_text hversion hfile rfl, rfl, rfl⟩
    · cases i with
      | zero =>
        cases hx
        rw [hzero]
        rfl
      | succ i => cases hx
  rw [historyOf?_directory, if_pos hallowed, hname]
  simp [hread, Except.map]

theorem historyOf?_directoryJ :
    historyOf? ledgerRoot ("4A", directoryJ) = .ok (some ⟨"J", [entryJ]⟩) := by
  have hname : typeName? "4A" = some "J" := by decide +kernel
  have hversion : version? "v0.json" = some entryJ.version := by
    rw [← fileName_entryJ]
    exact version?_fileName _
  exact historyOf?_single hname (by decide) rfl hversion (by decide)

theorem saved_recordedJ : Saved ledgerRoot recordedJ (ledgerWith [("4A", directoryJ)])
    (ledgerWith [("4A", directoryJ), ("4a", directoryJ)]) :=
  saved_of_save (save_of_items items_recordedJ directoryName_J
    (by rw [List.map_singleton, fileName_entryJ]) rfl)

theorem distinct_single (directory file : String) (content : ByteArray) :
    (ledgerWith [(directory, .directory [(file, .file content)])]).Distinct := by
  have hbelow {name : String} {t : FileTree} (ht : t.Distinct) :
      (FileTree.directory [(name, t)]).Distinct := by
    refine .directory (List.nodup_singleton _) fun e he => ?_
    rw [List.mem_singleton.mp he]
    exact ht
  exact hbelow (hbelow (hbelow (.file content)))

/-- A directory that is named in capital letters gets a second one beside it, and both have the
same history. -/
theorem load_resaved_capitals : ∃ t t' u, t.Distinct ∧ load ledgerRoot t = .ok recordedJ ∧
    Saved ledgerRoot recordedJ t t' ∧ t ≠ t' ∧ Unanimous ledgerRoot t ∧
    t'.RelistedAt ledgerRoot u ∧ t' ≠ u ∧ UsualNames ledgerRoot t recordedJ ∧
    load ledgerRoot t' = .ok recordedJ ∧ load ledgerRoot u = .ok recordedJ := by
  have hload : load ledgerRoot (ledgerWith [("4A", directoryJ)]) = .ok recordedJ :=
    loadInto_eq_ok_iff.mpr ⟨_, .cons historyOf?_directoryJ .nil, rfl⟩
  have hunanimous : Unanimous ledgerRoot (ledgerWith [("4A", directoryJ)]) := by
    intro entries hentries u hu v hv x y hx hy _
    cases (find?_ledgerWith _).symm.trans hentries
    rw [List.mem_singleton.mp hu, historyOf?_directoryJ] at hx
    rw [List.mem_singleton.mp hv, historyOf?_directoryJ] at hy
    cases hx
    cases hy
    rfl
  have husual : UsualNames ledgerRoot (ledgerWith [("4A", directoryJ)]) recordedJ := by
    intro h hmem files hfiles
    rw [items_recordedJ, List.mem_singleton] at hmem
    rw [hmem, directoryName_J] at hfiles
    cases hfiles
  have hrelisted : FileTree.RelistedAt ledgerRoot
      (ledgerWith [("4A", directoryJ), ("4a", directoryJ)])
      (ledgerWith [("4a", directoryJ), ("4A", directoryJ)]) :=
    relistedAt_ledgerWith (.of_perm (.swap _ _ _))
  have hdistinct : (ledgerWith [("4A", directoryJ)]).Distinct := distinct_single _ _ _
  have hagain := load_of_resaved hdistinct hload saved_recordedJ
  exact ⟨_, _, _, hdistinct, hload, saved_recordedJ, by simp [ledgerWith], hunanimous, hrelisted,
    by simp [ledgerWith], husual, (hagain.1 _).mpr ⟨rfl, husual⟩,
    (hagain.2 hunanimous _ hrelisted _).mpr ⟨rfl, husual⟩⟩

/-- The file of a version whose number has a zero too many. -/
def zerosFile : String × FileTree := ("v00.json", .file firstEntry.text.toByteArray)

/-- The file of the usual name. -/
def usualFile : String × FileTree := ("v0.json", .file firstEntry.text.toByteArray)

theorem version?_zerosFile : version? zerosFile.1 = some firstEntry.version := by decide +kernel

theorem typeName?_41 : typeName? "41" = some "A" := by
  rw [← directoryName_A]
  exact typeName?_directoryName (by decide)

theorem load_zerosFile : load ledgerRoot (ledgerOf [zerosFile]) = .ok Registry.recordedOnce := by
  have hread := historyOf?_single (e := firstEntry) typeName?_41 (by decide) rfl
    version?_zerosFile (by decide)
  exact loadInto_eq_ok_iff.mpr ⟨_, .cons hread .nil, rfl⟩

theorem save_zerosFile : save ledgerRoot Registry.recordedOnce (ledgerOf [zerosFile]) =
    (ledgerOf [zerosFile, usualFile], .ok ()) :=
  save_of_items items_recordedOnce directoryName_A files_recordedOnce rfl

theorem load_ledgerOf_of_error {files : List (String × FileTree)} {failure : Failure}
    (h : readHistory ⟨["ledger", "41"]⟩ "A" files = .error failure) :
    load ledgerRoot (ledgerOf files) = .error failure := by
  have htype : typeDirectory? ledgerRoot ("41", .directory files) = some ("A", files) := by
    have hallowed : (ledgerRoot.join "41").isAllowed = true := by decide
    rw [typeDirectory?.eq_def]
    simp [typeName?_41, hallowed]
  have hroute : ledgerRoot.join "41" = ⟨["ledger", "41"]⟩ := rfl
  have hroot : (ledgerOf files).find? ledgerRoot = some (.directory [("41", .directory files)]) :=
    find?_ledgerWith _
  simp only [load, hroot, loadInto, htype, hroute, h]

theorem readHistory_zerosFile_usualFile :
    readHistory ⟨["ledger", "41"]⟩ "A" [zerosFile, usualFile] =
      .error (.corrupt ⟨["ledger", "41"]⟩ (.versionMissing 1)) := by
  have husual : version? usualFile.1 = some firstEntry.version := by
    rw [usualFile, ← fileName_firstEntry]
    exact version?_fileName _
  have hentries : readEntries ⟨["ledger", "41"]⟩ "A" [zerosFile, usualFile] =
      .ok [firstEntry, firstEntry] :=
    readEntries_cons_eq_ok_iff.mpr ⟨_, _, entryOf?_text version?_zerosFile (by decide) rfl,
      readEntries_cons_eq_ok_iff.mpr ⟨_, [], entryOf?_text husual (by decide) rfl, rfl, rfl⟩, rfl⟩
  have hversion : firstEntry.version = 0 := rfl
  rw [readHistory, hentries]
  simp [List.mergeSort, firstMissing?, hversion]

/-- The save succeeds, and then two files hold the version. -/
theorem refused_resaved_zeros : ∃ t t' r, t.Distinct ∧ load ledgerRoot t = .ok r ∧
    save ledgerRoot r t = (t', .ok ()) ∧
    load ledgerRoot t' = .error (.corrupt ⟨["ledger", "41"]⟩ (.versionMissing 1)) :=
  ⟨ledgerOf [zerosFile], ledgerOf [zerosFile, usualFile], Registry.recordedOnce,
    distinct_single _ _ _, load_zerosFile, save_zerosFile,
    load_ledgerOf_of_error readHistory_zerosFile_usualFile⟩

end Ledger

end ShapeLedger
