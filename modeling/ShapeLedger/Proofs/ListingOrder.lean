import ShapeLedger.Proofs.Resaving

/-!
When the order in which directories are listed matters. Loading succeeds in
every order or in none. The histories of directories that are named for one
type take each other's places, so the last one that is listed is loaded and the
others are dropped. The same registry is loaded in every order, and everything
that is read is in it, exactly if such directories have one history in common.
This is so if each directory has the name that a save gives it.
-/

namespace ShapeLedger

open FileTree (Route put)

namespace FileTree

variable {t u u' : FileTree} {l : Location} {r : Route}
  {entries entries' : List (String × FileTree)}

/-! ### Listing in any order -/

theorem lookup_perm (h : (entries.map Prod.fst).Nodup) (hperm : entries.Perm entries')
    (name : String) : entries.lookup name = entries'.lookup name := by
  have h' : (entries'.map Prod.fst).Nodup := (hperm.map Prod.fst).nodup_iff.mp h
  refine Option.ext fun u => ⟨fun hu => ?_, fun hu => ?_⟩
  · exact lookup_of_mem h' (hperm.mem_iff.mp (mem_of_lookup hu))
  · exact lookup_of_mem h (hperm.mem_iff.mpr (mem_of_lookup hu))

/-- A tree in which something else stands at a location. It keeps all directories that are kept
there. -/
theorem exists_replaced (hl : t.at? l = some u)
    (hkeep : ∀ k, u.hasDirectory k = true → u'.hasDirectory k = true) :
    ∃ t' : FileTree, t'.at? l = some u' ∧ ∀ k, t.hasDirectory k = true → t'.hasDirectory k = true := by
  induction l generalizing t with
  | nil =>
    cases hl
    exact ⟨u', rfl, hkeep⟩
  | cons name l ih =>
    cases t with
    | file content => cases hl
    | directory entries =>
      obtain ⟨v, hv, hat⟩ := Option.bind_eq_some_iff.mp hl
      obtain ⟨v', hv', hkeep'⟩ := ih hat
      refine ⟨.directory (put name v' entries), ?_, fun k hk => ?_⟩
      · rw [at?, lookup_put_self, Option.bind_some, hv']
      · cases k with
        | nil => rfl
        | cons other k =>
          rw [hasDirectory, at?] at hk ⊢
          rw [lookup_put]
          split
          · rename_i hother
            rw [hother, hv] at hk
            exact hkeep' k hk
          · exact hk

/-- The entries of a directory can be listed in any order. -/
theorem exists_relistedAt (h : t.Distinct) (hr : t.find? r = some (.directory entries))
    (hperm : entries.Perm entries') :
    ∃ t' : FileTree, t'.find? r = some (.directory entries') ∧ t.RelistedAt r t' := by
  have hkeep : ∀ k, (FileTree.directory entries).hasDirectory k = true →
      (FileTree.directory entries').hasDirectory k = true := by
    intro k hk
    cases k with
    | nil => rfl
    | cons name k =>
      cases h.find? hr with
      | directory names below =>
        rw [hasDirectory, at?] at hk ⊢
        rw [← lookup_perm names hperm]
        exact hk
  obtain ⟨l, hallowed, hl, -, hat⟩ := exists_location hr
  obtain ⟨t', hat', hdirectories⟩ := exists_replaced hat hkeep
  have hr' : t'.find? r = some (.directory entries') := by
    rw [find?, if_pos hallowed, follow_mono hdirectories hl, Option.bind_some, hat']
  exact ⟨t', hr', _, _, hr, hr', .of_perm hperm⟩

end FileTree

namespace Ledger

variable {root : Route} {entries entries' : List (String × FileTree)} {t t' : FileTree}
  {r r' : Registry} {n : String} {x y : History}

/-! ### Loading in every order or in none -/

theorem readable_of_load (hroot : t.find? root = some (.directory entries))
    (hload : load root t = .ok r) : ∀ u ∈ entries, ∃ o, historyOf? root u = .ok o := by
  rw [load, hroot] at hload
  obtain ⟨hs, hfound, -⟩ := loadInto_eq_ok_iff.mp hload
  exact hfound.readable

theorem exists_load_of_readable (hroot : t.find? root = some (.directory entries))
    (hreadable : ∀ u ∈ entries, ∃ o, historyOf? root u = .ok o) :
    ∃ r, load root t = .ok r := by
  obtain ⟨hs, hfound⟩ := exists_found hreadable
  rw [load, hroot]
  exact ⟨_, loadInto_eq_ok_iff.mpr ⟨hs, hfound, rfl⟩⟩

/-- Only a directory can be loaded. -/
theorem exists_entries_of_relistedAt (hload : load root t = .ok r) (h : t.RelistedAt root t') :
    ∃ entries entries', t.find? root = some (.directory entries) ∧
      t'.find? root = some (.directory entries') ∧
        FileTree.Relisted (.directory entries) (.directory entries') := by
  obtain ⟨u, u', hu, hu', hsame⟩ := h
  have hrelisted := hsame
  cases hsame with
  | file content =>
    rw [load, hu] at hload
    cases hload
  | directory => exact ⟨_, _, hu, hu', hrelisted⟩

theorem exists_load_of_relistedAt (hload : load root t = .ok r) (h : t.RelistedAt root t') :
    ∃ r', load root t' = .ok r' := by
  obtain ⟨entries, entries', hroot, hroot', hrelisted⟩ := exists_entries_of_relistedAt hload h
  refine exists_load_of_readable hroot' fun v hv => ?_
  obtain ⟨u, hu, hread⟩ := (exists_of_relisted root hrelisted).2 v hv
  obtain ⟨o, ho⟩ := readable_of_load hroot hload u hu
  exact ⟨o, (hread o).mp ho⟩

/-- Every history that is found is loaded in some order, the one in which its directory is the
last. -/
theorem exists_load_of_historyOf? (hdistinct : t.Distinct)
    (hroot : t.find? root = some (.directory entries)) (hload : load root t = .ok r)
    {u : String × FileTree} (hu : u ∈ entries) (hx : historyOf? root u = .ok (some x)) :
    ∃ (t' : FileTree) (r' : Registry),
      t.RelistedAt root t' ∧ load root t' = .ok r' ∧ x ∈ r'.items := by
  obtain ⟨before, behind, rfl⟩ := List.append_of_mem hu
  have hperm : (before ++ u :: behind).Perm ((before ++ behind) ++ [u]) :=
    List.perm_middle.trans (List.perm_append_singleton u _).symm
  obtain ⟨t', hroot', hrelisted⟩ := FileTree.exists_relistedAt hdistinct hroot hperm
  have hothers : ∀ v ∈ before ++ behind, ∃ o, historyOf? root v = .ok o := fun v hv =>
    readable_of_load hroot hload v (hperm.mem_iff.mpr (List.mem_append_left _ hv))
  obtain ⟨hs, hfound⟩ := exists_found hothers
  have hlast := found_append_iff.mpr ⟨hs, [x], hfound, .cons hx .nil, rfl⟩
  refine ⟨t', (hs ++ [x]).foldl NameTable.insert NameTable.empty, hrelisted, ?_, ?_⟩
  · rw [load, hroot']
    exact loadInto_eq_ok_iff.mpr ⟨_, hlast, rfl⟩
  · rw [List.foldl_append, List.foldl_cons, List.foldl_nil]
    exact NameTable.mem_insert_self _ x

/-! ### What is dropped -/

/-- Every entry that is read from a file in the directory of a type is in the registry. -/
def Complete (root : Route) (t : FileTree) (r : Registry) : Prop :=
  ∀ entries, t.find? root = some (.directory entries) →
    ∀ u ∈ entries, ∀ n files, typeDirectory? root u = some (n, files) →
      ∀ f ∈ files, ∀ e, entryOf? (root.join u.1) n f = .ok (some e) → e ∈ r.entries n

/-- What is read from a file is part of the history of its directory. -/
theorem exists_historyOf?_of_entryOf? {u f : String × FileTree} {files : List (String × FileTree)}
    {e : Entry} (hreadable : ∃ o, historyOf? root u = .ok o)
    (htype : typeDirectory? root u = some (n, files)) (hf : f ∈ files)
    (he : entryOf? (root.join u.1) n f = .ok (some e)) :
    ∃ es, historyOf? root u = .ok (some ⟨n, es⟩) ∧ e ∈ es := by
  obtain ⟨o, ho⟩ := hreadable
  simp only [historyOf?, htype, map_eq_ok_iff] at ho
  obtain ⟨es, hes, -⟩ := ho
  have hmem : e ∈ es := (mem_of_readHistory hes).mpr ⟨f, hf, he⟩
  exact ⟨es, historyOf?_eq_some_iff.mpr ⟨files, htype, hes, List.ne_nil_of_mem hmem⟩, hmem⟩

theorem Loads.complete (h : Loads root entries r)
    (hroot : t.find? root = some (.directory entries)) : Complete root t r := by
  intro entries' hentries' u hu n files htype f hf e he
  cases hroot.symm.trans hentries'
  obtain ⟨es, hes, hmem⟩ := exists_historyOf?_of_entryOf? (h.readable u hu) htype hf he
  have hitem := (h.items _).mpr ⟨u, hu, hes⟩
  rw [Registry.entries_of_mem hitem]
  exact hmem

theorem Complete.mem_entries (h : Complete root t r)
    (hroot : t.find? root = some (.directory entries)) {u : String × FileTree} (hu : u ∈ entries)
    (hx : historyOf? root u = .ok (some x)) : ∀ e ∈ x.entries, e ∈ r.entries x.typeName := by
  obtain ⟨files, htype, hread, -⟩ := historyOf?_eq_some_iff.mp hx
  intro e he
  obtain ⟨f, hf, hfile⟩ := (mem_of_readHistory hread).mp he
  exact h entries hroot u hu _ files htype f hf e hfile

/-! ### One history for each type -/

theorem numbered_of_historyOf? {u : String × FileTree} (h : historyOf? root u = .ok (some x)) :
    Numbered x.entries := by
  obtain ⟨files, -, hread, -⟩ := historyOf?_eq_some_iff.mp h
  obtain ⟨-, -, -, hnumbered⟩ := readHistory_eq_ok_iff.mp hread
  exact hnumbered

theorem eq_of_entries_eq (hname : x.typeName = y.typeName) (h : x.entries = y.entries) : x = y := by
  cases x
  cases y
  cases hname
  cases h
  rfl

/-- Each directory of a type has the name that a save gives it. -/
def UsualDirectories (root : Route) (t : FileTree) : Prop :=
  ∀ entries, t.find? root = some (.directory entries) →
    ∀ u ∈ entries, ∀ n, typeName? u.1 = some n → u.1 = directoryName n

theorem unanimous_of_usualDirectories (hdistinct : t.Distinct) (h : UsualDirectories root t) :
    Unanimous root t := by
  intro entries hroot u hu v hv x y hx hy hname
  have hdirectory : u.1 = v.1 := by
    rw [h entries hroot u hu _ (exists_of_historyOf? hx).1,
      h entries hroot v hv _ (exists_of_historyOf? hy).1, hname]
  have huv : u = v := by
    cases hdistinct.find? hroot with
    | directory names below =>
      refine Prod.ext hdirectory (Option.some.inj ?_)
      rw [← FileTree.lookup_of_mem names hu, hdirectory, FileTree.lookup_of_mem names hv]
  rw [huv, hy] at hx
  cases hx
  rfl

/-- If no two directories disagree, the same registry is loaded in every order, and nothing is
dropped. -/
theorem load_of_unanimous (hload : load root t = .ok r) (hunanimous : Unanimous root t)
    (h : t.RelistedAt root t') : load root t' = .ok r ∧ Complete root t' r := by
  obtain ⟨entries, entries', hroot, hroot', hrelisted⟩ := exists_entries_of_relistedAt hload h
  have hloads : Loads root entries r := by
    rw [load, hroot] at hload
    exact loads_of_unanimous hroot hload hunanimous
  exact ⟨hloads.load_eq hroot h, (hloads.relisted hrelisted).complete hroot'⟩

/-- If one registry is loaded in every order, no two directories disagree. -/
theorem unanimous_of_load_eq (hdistinct : t.Distinct) (hload : load root t = .ok r)
    (h : ∀ u, t.RelistedAt root u → load root u = .ok r) : Unanimous root t := by
  intro entries hroot u hu v hv x y hx hy hname
  have hmem {u : String × FileTree} {x : History} (hu : u ∈ entries)
      (hx : historyOf? root u = .ok (some x)) : x ∈ r.items := by
    obtain ⟨t', r', hrelisted, hload', hitem⟩ := exists_load_of_historyOf? hdistinct hroot hload hu hx
    cases (h t' hrelisted).symm.trans hload'
    exact hitem
  exact NameTable.eq_of_nameOf_eq (hmem hu hx) (hmem hv hy) hname

/-- If nothing is dropped in any order, each of two histories of a type begins with the other. -/
theorem unanimous_of_complete (hdistinct : t.Distinct) (hload : load root t = .ok r)
    (h : ∀ u r', t.RelistedAt root u → load root u = .ok r' → Complete root u r') :
    Unanimous root t := by
  intro entries hroot u hu v hv x y hx hy hname
  have hbegins {u v : String × FileTree} {x y : History} (hu : u ∈ entries) (hv : v ∈ entries)
      (hx : historyOf? root u = .ok (some x)) (hy : historyOf? root v = .ok (some y))
      (hname : x.typeName = y.typeName) : x.entries <+: y.entries := by
    obtain ⟨t', r', hrelisted, hload', hitem⟩ := exists_load_of_historyOf? hdistinct hroot hload hv hy
    obtain ⟨_, entries', hsame, hroot', hentries⟩ := exists_entries_of_relistedAt hload hrelisted
    cases hroot.symm.trans hsame
    obtain ⟨u', hu', hread⟩ := (exists_of_relisted root hentries).1 u hu
    have hmem := (h t' r' hrelisted hload').mem_entries hroot' hu' ((hread _).mp hx)
    rw [hname, Registry.entries_of_mem hitem] at hmem
    exact (numbered_of_historyOf? hx).prefix_of_subset (numbered_of_historyOf? hy) hmem
  have hforth := hbegins hu hv hx hy hname
  have hback := hbegins hv hu hy hx hname.symm
  refine eq_of_entries_eq hname ?_
  exact hforth.eq_of_length (Nat.le_antisymm hforth.length_le hback.length_le)

/-- Whether a ledger can be loaded does not depend on the order in which its directories are
listed. What is loaded does not depend on it exactly if no two directories disagree about a type,
and then, and only then, nothing that is read is dropped in any order. -/
theorem order_irrelevant_iff (hdistinct : t.Distinct) (hload : load root t = .ok r) :
    (∀ u, t.RelistedAt root u → ∃ r', load root u = .ok r') ∧
      (Unanimous root t ↔ ∀ u, t.RelistedAt root u → load root u = .ok r) ∧
      (Unanimous root t ↔
        ∀ u r', t.RelistedAt root u → load root u = .ok r' → Complete root u r') ∧
      (UsualDirectories root t → Unanimous root t) := by
  refine ⟨fun u => exists_load_of_relistedAt hload,
    ⟨fun hunanimous u hu => (load_of_unanimous hload hunanimous hu).1,
      unanimous_of_load_eq hdistinct hload⟩,
    ⟨fun hunanimous u r' hu hload' => ?_, unanimous_of_complete hdistinct hload⟩,
    unanimous_of_usualDirectories hdistinct⟩
  obtain ⟨hsame, hcomplete⟩ := load_of_unanimous hload hunanimous hu
  cases hload'.symm.trans hsame
  exact hcomplete

/-! ### Two directories of one type -/

/-- Another first version of the type `J`. -/
def rivalJ : Entry := ⟨"J", 0, "C-Y", Digest.ofText "C-Y", .epoch⟩

/-- A directory with the file of one entry. -/
def directoryOf (e : Entry) : FileTree :=
  .directory [(fileName e.version, .file e.text.toByteArray)]

/-- The two ways to write the name of the directory of the type `J`. -/
theorem typeName?_4a : typeName? "4a" = some "J" := by decide +kernel

theorem typeName?_4A : typeName? "4A" = some "J" := by decide +kernel

theorem historyOf?_directoryOf {directory : String} {e : Entry}
    (hname : typeName? directory = some e.typeName)
    (hallowed : (ledgerRoot.join directory).isAllowed = true) (hzero : e.version = 0)
    (hfile : ((ledgerRoot.join directory).join (fileName e.version)).isAllowed = true) :
    historyOf? ledgerRoot (directory, directoryOf e) = .ok (some ⟨e.typeName, [e]⟩) :=
  historyOf?_single hname hallowed hzero (version?_fileName _) hfile

theorem distinct_pair {d d' : String} (hne : d ≠ d') (e e' : Entry) :
    (ledgerWith [(d, directoryOf e), (d', directoryOf e')]).Distinct := by
  have hdirectory (e : Entry) : (directoryOf e).Distinct := by
    refine .directory (List.nodup_singleton _) fun f hf => ?_
    rw [List.mem_singleton.mp hf]
    exact .file _
  refine .directory (List.nodup_singleton _) fun u hu => ?_
  rw [List.mem_singleton.mp hu]
  refine .directory (by simpa using hne) fun v hv => ?_
  rcases List.mem_pair.mp hv with rfl | rfl
  · exact hdirectory e
  · exact hdirectory e'

theorem historyOf?_entryJ {directory : String} (hname : typeName? directory = some "J")
    (hallowed : (ledgerRoot.join directory).isAllowed = true)
    (hfile : ((ledgerRoot.join directory).join "v0.json").isAllowed = true) :
    historyOf? ledgerRoot (directory, directoryOf entryJ) = .ok (some ⟨"J", [entryJ]⟩) :=
  historyOf?_directoryOf (e := entryJ) hname hallowed rfl (fileName_entryJ ▸ hfile)

theorem historyOf?_rivalJ :
    historyOf? ledgerRoot ("4A", directoryOf rivalJ) = .ok (some ⟨"J", [rivalJ]⟩) :=
  historyOf?_directoryOf (e := rivalJ) typeName?_4A (by decide) rfl (by decide)

/-- Of two directories for one type the one that is listed last is loaded, and the entry of the
other one is dropped. -/
theorem load_depends_on_order : ∃ t t' r r', t.Distinct ∧ t.RelistedAt ledgerRoot t' ∧
    load ledgerRoot t = .ok r ∧ load ledgerRoot t' = .ok r' ∧ r ≠ r' ∧
    ¬ Complete ledgerRoot t r ∧ ¬ Complete ledgerRoot t' r' := by
  have hlower := historyOf?_entryJ typeName?_4a (by decide) (by decide)
  have hupper := historyOf?_rivalJ
  have hdiffers : entryJ ≠ rivalJ := by decide +kernel
  refine ⟨ledgerWith [("4a", directoryOf entryJ), ("4A", directoryOf rivalJ)], _,
    .single rivalJ, .single entryJ, distinct_pair (by decide) _ _,
    relistedAt_ledgerWith (.of_perm (.swap _ _ _)),
    loadInto_eq_ok_iff.mpr ⟨_, .cons hlower (.cons hupper .nil), rfl⟩,
    loadInto_eq_ok_iff.mpr ⟨_, .cons hupper (.cons hlower .nil), rfl⟩,
    fun hsame => ?_, fun hcomplete => ?_, fun hcomplete => ?_⟩
  · have hentries := congrArg (fun r => Registry.entries r "J") hsame
    exact hdiffers (List.head_eq_of_cons_eq hentries).symm
  · have hmem := hcomplete.mem_entries (find?_ledgerWith _) (by simp) hlower entryJ (by simp)
    exact hdiffers (List.mem_singleton.mp hmem)
  · have hmem := hcomplete.mem_entries (find?_ledgerWith _) (by simp) hupper rivalJ (by simp)
    exact hdiffers (List.mem_singleton.mp hmem).symm

/-- Two directories for one type, in capitals and not, that have the same history. -/
theorem order_irrelevant_twins : ∃ t t', t.Distinct ∧ load ledgerRoot t = .ok recordedJ ∧
    Unanimous ledgerRoot t ∧ t.RelistedAt ledgerRoot t' ∧ t ≠ t' ∧
    load ledgerRoot t' = .ok recordedJ ∧ Complete ledgerRoot t' recordedJ := by
  have hlower := historyOf?_entryJ typeName?_4a (by decide) (by decide)
  have hupper := historyOf?_entryJ typeName?_4A (by decide) (by decide)
  have hdistinct := distinct_pair (show "4a" ≠ "4A" by decide) entryJ entryJ
  have hload : load ledgerRoot (ledgerWith [("4a", directoryOf entryJ),
      ("4A", directoryOf entryJ)]) = .ok recordedJ :=
    loadInto_eq_ok_iff.mpr ⟨_, .cons hlower (.cons hupper .nil), rfl⟩
  have hunanimous : Unanimous ledgerRoot (ledgerWith [("4a", directoryOf entryJ),
      ("4A", directoryOf entryJ)]) := by
    intro entries hentries u hu v hv x y hx hy _
    cases (find?_ledgerWith _).symm.trans hentries
    have hread : ∀ u ∈ [("4a", directoryOf entryJ), ("4A", directoryOf entryJ)],
        historyOf? ledgerRoot u = .ok (some ⟨"J", [entryJ]⟩) := by
      simp [hlower, hupper]
    cases (hread u hu).symm.trans hx
    cases (hread v hv).symm.trans hy
    rfl
  obtain ⟨-, hsame, hcomplete, -⟩ := order_irrelevant_iff hdistinct hload
  have hrelisted := relistedAt_ledgerWith (.of_perm
    (.swap ("4A", directoryOf entryJ) ("4a", directoryOf entryJ) []))
  exact ⟨_, _, hdistinct, hload, hunanimous, hrelisted, by simp [ledgerWith],
    hsame.mp hunanimous _ hrelisted,
    hcomplete.mp hunanimous _ _ hrelisted (hsame.mp hunanimous _ hrelisted)⟩

end Ledger

end ShapeLedger
