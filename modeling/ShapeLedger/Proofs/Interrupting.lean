import ShapeLedger.Proofs.Resaving

/-!
Saves that stop on their way. The changes that were made are those of a save of
beginnings: some histories in full, of one perhaps the first versions only, of
the others nothing. A history that was begun is laid over the one that stands
there, like any other; of one that has a directory but no version yet nothing
is seen. So a ledger can be loaded after every single change of a save, and
each version that it has is the new one or the one that it had before.
-/

namespace ShapeLedger

open FileTree (Route Effect put)

namespace Ledger

variable {root : Route} {entries : List (String × FileTree)} {t t' : FileTree}
  {old r s : Registry} {h x : History} {hs done : List History} {n : String}
  {e : Effect} {es fs : List Effect}

/-! ### Changes that were made in full -/

/-- What a save changes: it makes directories in the root, and writes files. -/
inductive Below (root : Route) : Effect → Prop
  | makeDirectory {name : String} (isName : Route.isName name = true) :
    Below root (.makeDirectory (root.join name))
  | write (route : Route) (content : ByteArray) : Below root (.write route content)

theorem below_of_mem_saveEffects (hnamed : ∀ h ∈ hs, h.typeName ≠ "")
    (he : e ∈ saveEffects root hs) : Below root e := by
  obtain ⟨h, hmem, he⟩ := List.mem_flatMap.mp he
  rcases List.mem_cons.mp he with rfl | he
  · exact .makeDirectory (isName_directoryName (hnamed h hmem))
  · obtain ⟨x, -, rfl⟩ := List.mem_map.mp he
    exact .write _ _

/-- A change that is not possible changes nothing. -/
theorem Below.perform_of_false (hbelow : Below root e)
    (hroot : t.find? root = some (.directory entries)) (h : t.perform e = (t', false)) :
    t' = t := by
  cases hbelow with
  | makeDirectory isName => exact FileTree.makeDirectory_of_false hroot isName h
  | write route content =>
    rw [FileTree.perform] at h
    split at h
    · cases h
    · cases h
      rfl

theorem exists_find?_perform (hroot : t.find? root = some (.directory entries)) (e : Effect) :
    ∃ entries', (t.perform e).1.find? root = some (.directory entries') := by
  have hkept : ((t.perform e).1.find? root).any FileTree.isDirectory = true :=
    FileTree.isDirectory_find?_mono (fun k hk => FileTree.hasDirectory_perform e hk)
      (by rw [hroot]; rfl)
  cases hfind : (t.perform e).1.find? root with
  | none =>
    rw [hfind] at hkept
    cases hkept
  | some u =>
    cases u with
    | file content =>
      rw [hfind] at hkept
      cases hkept
    | directory entries' => exact ⟨entries', rfl⟩

/-- Whether changes stop at one that is not possible or not, what they leave is what the ones
before it left that were made in full. -/
theorem exists_performed (hroot : t.find? root = some (.directory entries))
    (hbelow : ∀ e ∈ es, Below root e) :
    ∃ fs, fs <+: es ∧ performAll fs t = ((performAll es t).1, .ok ()) := by
  induction es generalizing t entries with
  | nil => exact ⟨[], List.prefix_refl _, rfl⟩
  | cons e es ih =>
    rw [performAll]
    split
    · -- The root is a directory still, so the changes that follow are below one.
      rename_i u hu
      obtain ⟨entries', hfind⟩ := exists_find?_perform hroot e
      rw [hu] at hfind
      obtain ⟨fs, hbegins, hperformed⟩ :=
        ih hfind fun e he => hbelow e (List.mem_cons_of_mem _ he)
      exact ⟨e :: fs, List.cons_prefix_cons.mpr ⟨rfl, hbegins⟩,
        performAll_cons_eq_ok_iff.mpr ⟨u, hu, hperformed⟩⟩
    · rename_i u hu
      rw [(hbelow e List.mem_cons_self).perform_of_false hroot hu]
      exact ⟨[], List.nil_prefix, rfl⟩

/-! ### Histories that were begun -/

/-- The first ones are the histories as far as they were saved when a save of the others had
stopped. -/
inductive Begun : List History → List History → Prop
  | nothing {hs : List History} : Begun [] hs
  | part {h : History} {es : List Entry} {hs : List History} (versions : es <+: h.entries) :
    Begun [⟨h.typeName, es⟩] (h :: hs)
  | whole {h : History} {done hs : List History} (rest : Begun done hs) :
    Begun (h :: done) (h :: hs)

/-- The beginning of a save is the save of what was begun. -/
theorem exists_begun_of_prefix (hbegins : es <+: saveEffects root hs) :
    ∃ done, Begun done hs ∧ es = saveEffects root done := by
  induction hs generalizing es with
  | nil => exact ⟨[], .nothing, List.prefix_nil.mp hbegins⟩
  | cons h hs ih =>
    obtain ⟨after, hafter⟩ := hbegins
    rcases List.append_eq_append_iff.mp hafter with ⟨behind, hhistory, -⟩ | ⟨fs, rfl, hrest⟩
    · -- The save stopped within the first history.
      have hpart : es <+: historyEffects root h := ⟨behind, hhistory.symm⟩
      rcases List.prefix_cons_iff.mp hpart with rfl | ⟨ws, rfl, hws⟩
      · exact ⟨[], .nothing, rfl⟩
      · obtain ⟨written, hwritten, rfl⟩ := List.prefix_map_iff.mp hws
        exact ⟨[⟨h.typeName, written⟩], .part hwritten, (List.flatMap_singleton _ _).symm⟩
    · obtain ⟨done, hdone, rfl⟩ := ih ⟨after, hrest.symm⟩
      exact ⟨h :: done, .whole hdone, rfl⟩

theorem Begun.exists_of_mem (hbegun : Begun done hs) (hx : x ∈ done) :
    ∃ h ∈ hs, x.typeName = h.typeName ∧ x.entries <+: h.entries := by
  induction hbegun with
  | nothing => cases hx
  | @part h es hs versions =>
    cases List.mem_singleton.mp hx
    exact ⟨h, List.mem_cons_self, rfl, versions⟩
  | @whole h done hs rest ih =>
    rcases List.mem_cons.mp hx with rfl | hx
    · exact ⟨x, List.mem_cons_self, rfl, List.prefix_refl _⟩
    · obtain ⟨y, hy, hbegins⟩ := ih hx
      exact ⟨y, List.mem_cons_of_mem _ hy, hbegins⟩

/-- Of each type the first versions were saved. -/
theorem Begun.prefix_entriesOf (hbegun : Begun done hs) (n : String) :
    entriesOf done n <+: entriesOf hs n := by
  induction hbegun with
  | nothing => exact List.nil_prefix
  | @part h es hs versions =>
    rw [entriesOf_cons, entriesOf_cons]
    split
    · rw [show entriesOf [] n = [] from rfl, List.append_nil]
      exact versions.trans (List.prefix_append _ _)
    · exact List.nil_prefix
  | @whole h done hs rest ih =>
    rw [entriesOf_cons, entriesOf_cons]
    split
    · exact (List.prefix_append_right_inj _).mpr ih
    · exact ih

theorem writable_of_prefix (hh : h.Sound) (hname : x.typeName = h.typeName)
    (hbegins : x.entries <+: h.entries) : Writable x := by
  by_cases hnil : x.entries = []
  · exact .inr ⟨hname ▸ hh.named, hnil⟩
  · refine .inl ⟨hname ▸ hh.named, hnil, fun e he => ?_, fun i e he => ?_⟩
    · rw [hname]
      exact hh.owned e (hbegins.subset he)
    · rw [hh.numberedFrom.beginning hbegins i e he, Nat.zero_add]

/-! ### Whole saves -/

/-- Saving the registry, its types in any order, has stopped after some of its changes, or at one
that is not possible. -/
def Stopped (root : Route) (s : Registry) (t t' : FileTree) : Prop :=
  ∃ hs es, hs.Perm s.items ∧ es <+: saveEffects root hs ∧ (performAll es t).1 = t'

theorem stopped_of_save : Stopped root s t (save root s t).1 :=
  ⟨s.items, _, .refl _, List.prefix_refl _, rfl⟩

/-- A save that has stopped has laid the first versions of each type over those that stand
there. -/
theorem Stands.stopped (hroot : t.find? root = some (.directory entries))
    (hstands : Stands root entries r) (hsound : s.Sound) (hstopped : Stopped root s t t') :
    ∃ entries' r', t'.find? root = some (.directory entries') ∧ Stands root entries' r' ∧
      ∀ n, ∃ es, es <+: s.entries n ∧ r'.entries n = es.foldl place (r.entries n) := by
  obtain ⟨hs, es, hperm, hbegins, rfl⟩ := hstopped
  have hs_sound : ∀ h ∈ hs, h.Sound := fun h hh => hsound h (hperm.mem_iff.mp hh)
  have hbelow : ∀ e ∈ es, Below root e := fun e he =>
    below_of_mem_saveEffects (fun h hh => (hs_sound h hh).named) (hbegins.subset he)
  obtain ⟨fs, hfs, hperformed⟩ := exists_performed hroot hbelow
  -- From here on the save is a whole one, of fewer histories and versions.
  obtain ⟨done, hbegun, rfl⟩ := exists_begun_of_prefix (hfs.trans hbegins)
  have hdone : ∀ x ∈ done, Writable x := by
    intro x hx
    obtain ⟨h, hh, hname, hversions⟩ := hbegun.exists_of_mem hx
    exact writable_of_prefix (hs_sound h hh) hname hversions
  have hnamed : ∀ x ∈ done, x.typeName ≠ "" := fun x hx =>
    (hdone x hx).elim History.Sound.named And.left
  obtain ⟨hfits, hfind⟩ := find?_of_saveEffects hroot hnamed hperformed
  obtain ⟨r', hr', hentries⟩ := hstands.foldl_written hfits hdone
  refine ⟨_, r', hfind, hr', fun n => ⟨_, ?_, hentries n⟩⟩
  rw [← entriesOf_perm_items hperm n]
  exact hbegun.prefix_entriesOf n

/-- The versions below `k` are those of `s`, and the others those of `old`. -/
structure Spliced (s old r : Registry) (n : String) (k : Nat) : Prop where
  renewed : ∀ v : UInt32, v.toNat < k →
    ∃ e ∈ s.entries n, e.version = v ∧ r.version? n v = some e
  kept : ∀ v : UInt32, k ≤ v.toNat → r.version? n v = old.version? n v
  /-- An entry of a version is the only one unless the numbers have begun again. -/
  unique : (s.entries n).length ≤ UInt32.size →
    ∀ v : UInt32, v.toNat < k → r.version? n v = s.version? n v

theorem spliced_of_foldl_place {es : List Entry} (hs : s.Sound) (hbegins : es <+: s.entries n)
    (hentries : r.entries n = es.foldl place (old.entries n)) :
    Spliced s old r n (min es.length UInt32.size) := by
  have hnumbered := (hs.numberedFrom n).beginning hbegins
  have hversion : ∀ v : UInt32, r.version? n v = (lastAt es v.toNat).or (old.version? n v) := by
    intro v
    rw [Registry.version?, hentries, getElem?_foldl_place hnumbered (Nat.zero_le _),
      Registry.version?]
  have hrenewed : ∀ v : UInt32, v.toNat < min es.length UInt32.size →
      ∃ e ∈ s.entries n, e.version = v ∧ r.version? n v = some e := by
    intro v hv
    cases hlast : lastAt es v.toNat with
    | none =>
      have hlength := (lastAt_eq_none_iff hnumbered v.toNat_lt).mp hlast
      omega
    | some e =>
      obtain ⟨hmem, hsame⟩ := mem_of_lastAt hlast
      exact ⟨e, hbegins.subset hmem, UInt32.toNat_inj.mp hsame, by rw [hversion, hlast]; rfl⟩
  refine ⟨hrenewed, fun v hv => ?_, fun hbounded v hv => ?_⟩
  · -- A number beyond the places that were written is the version of none of their entries.
    have hlt : v.toNat < UInt32.size := v.toNat_lt
    have hlast := (lastAt_eq_none_iff hnumbered hlt).mpr (by omega)
    rw [hversion, hlast, Option.none_or]
  · obtain ⟨e, hmem, rfl, he⟩ := hrenewed v hv
    obtain ⟨i, hi⟩ := List.getElem?_of_mem hmem
    rw [he, Registry.version?, (hs.numbered_of_le hbounded) i e hi, hi]

/-- After a save has stopped, wherever that was, the ledger is loaded, and each type has the first
of its versions from the registry that was to be saved, and the others as they were. -/
theorem load_of_stopped {rs : List Registry} {t₀ t'' : FileTree}
    (hroot : t₀.find? root = some FileTree.empty) (hrs : ∀ q ∈ rs, Registry.Reachable q)
    (hsaved : SavedAll root t₀ rs t) (hold : load root t = .ok old) (hs : s.Reachable)
    (hstopped : Stopped root s t t') (hrelisted : t'.RelistedAt root t'') :
    ∃ r, load root t'' = .ok r ∧
      (∀ n ∈ old.names, n ∈ r.names ∧ old.versions n <+: r.versions n) ∧
      ∀ n, ∃ k, Spliced s old r n k := by
  obtain ⟨entries, q, hfind, hstands, -⟩ :=
    stands_of_savedAll hroot (fun q hq => (hrs q hq).sound) hsaved
  have hloaded : load root t = .ok q := by
    rw [load, hfind]
    exact hstands.loads.loadInto_eq
  cases hold.symm.trans hloaded
  obtain ⟨entries', r, hfind', hstands', hr⟩ := hstands.stopped hfind hs.sound hstopped
  have hload := hstands'.loads.load_eq hfind' hrelisted
  refine ⟨r, hload, fun n hn => ?_, fun n => ?_⟩
  · obtain ⟨es, -, hentries⟩ := hr n
    have hnonempty := (Registry.mem_names_iff (sound_of_load hold)).mp hn
    constructor
    · rw [Registry.mem_names_iff (sound_of_load hload), hentries]
      exact foldl_place_ne_nil (.inl hnonempty)
    · refine (hstands.numbered n).map_version_of_length_le (hstands'.numbered n) ?_
      rw [hentries]
      exact length_le_foldl_place _ _
  · obtain ⟨es, hbegins, hentries⟩ := hr n
    exact ⟨_, spliced_of_foldl_place hs.sound hbegins hentries⟩

/-! ### A save that stops after its first version -/

/-- The files of a type that was saved are loaded in any order. -/
theorem load_ledgerOf {files : List (String × FileTree)} {es : List Entry}
    (hfiles : files.Perm (withEntries [] es)) (hnonempty : es ≠ [])
    (howned : ∀ e ∈ es, e.typeName = "A") (hnumbered : Numbered es)
    (hallowed : ∀ e ∈ es,
      ((ledgerRoot.join "41").join (fileName e.version)).isAllowed = true) :
    load ledgerRoot (ledgerOf files) = .ok (NameTable.empty.insert ⟨"A", es⟩) := by
  have hread : readHistory (ledgerRoot.join "41") "A" files = .ok es := by
    rw [readHistory_perm hfiles, readHistory_withEntries readHistory_nil List.nodup_nil
      (fun _ _ => nofun) howned hnumbered.numberedFrom (Nat.zero_le _) hallowed,
      foldl_place_eq hnumbered List.nil_prefix]
  have hroute : (ledgerRoot.join "41").isAllowed = true := by decide
  have htype : typeDirectory? ledgerRoot ("41", .directory files) = some ("A", files) :=
    typeDirectory?_eq_some_iff.mpr ⟨rfl, hroute, typeName?_41⟩
  have hhistory := historyOf?_eq_some_iff (x := ⟨"A", es⟩) |>.mpr ⟨files, htype, hread, hnonempty⟩
  exact loadInto_eq_ok_iff.mpr ⟨_, .cons hhistory .nil, rfl⟩

def otherFirst : Entry := ⟨"A", 0, "D-Z", Digest.ofText "D-Z", .epoch⟩

def otherSecond : Entry := ⟨"A", 1, "E-W", Digest.ofText "E-W", .epoch⟩

/-- What a session has that recorded other fingerprints. -/
def recordedOtherwise : Registry :=
  NameTable.empty.insert ⟨"A", [otherFirst, otherSecond]⟩

theorem reachable_recordedOtherwise : recordedOtherwise.Reachable := by
  have hafter : Registry.afterSteps [.create, .record 0 .epoch "A" "D-Z",
      .record 0 .epoch "A" "E-W"] = [recordedOtherwise] := by
    decide +kernel
  exact ⟨_, hafter ▸ List.mem_singleton_self _⟩

theorem fileName_otherFirst : fileName otherFirst.version = "v0.json" := fileName_firstEntry

/-- The ledger with the first version from one file and the second from the other. -/
theorem load_twoFiles (first second : Entry) {files : List (String × FileTree)}
    (hfirst : first.typeName = "A" ∧ first.version = 0)
    (hsecond : second.typeName = "A" ∧ second.version = 1)
    (hfiles : files.Perm [("v0.json", .file first.text.toByteArray),
      ("v1.json", .file second.text.toByteArray)]) :
    load ledgerRoot (ledgerOf files) = .ok (NameTable.empty.insert ⟨"A", [first, second]⟩) := by
  have hzero : fileName first.version = "v0.json" := hfirst.2 ▸ fileName_firstEntry
  have hone : fileName second.version = "v1.json" := hsecond.2 ▸ fileName_secondEntry
  have hwritten : withEntries [] [first, second] = [("v0.json", .file first.text.toByteArray),
      ("v1.json", .file second.text.toByteArray)] := by
    simp [withEntries, put, hzero, hone]
  have hnumbered : Numbered [first, second] := by
    rintro (_ | _ | i) e he
    · cases he
      rw [hfirst.2]
      rfl
    · cases he
      rw [hsecond.2]
      rfl
    · cases he
  refine load_ledgerOf (hwritten ▸ hfiles) (List.cons_ne_nil _ _) ?_ hnumbered ?_
  · simp [hfirst.1, hsecond.1]
  · have hallowed : ∀ name ∈ ["v0.json", "v1.json"],
        ((ledgerRoot.join "41").join name).isAllowed = true := by decide
    simpa [hzero, hone] using hallowed

/-- The save stops after it has written one of two versions. -/
theorem stopped_recordedOtherwise : Stopped ledgerRoot recordedOtherwise
    (ledgerOf [("v0.json", .file firstEntry.text.toByteArray),
      ("v1.json", .file secondEntry.text.toByteArray)])
    (ledgerOf [("v0.json", .file otherFirst.text.toByteArray),
      ("v1.json", .file secondEntry.text.toByteArray)]) := by
  have hitems : recordedOtherwise.items = [⟨"A", [otherFirst, otherSecond]⟩] := rfl
  refine ⟨_, _, .refl _, List.take_prefix 2 _, ?_⟩
  simp only [hitems, saveEffects, List.flatMap_singleton, historyEffects, List.map_cons,
    List.map_nil, List.take_succ_cons, List.take_zero, directoryName_A, fileName_otherFirst]
  generalize firstEntry.text.toByteArray = content
  generalize secondEntry.text.toByteArray = content'
  generalize otherFirst.text.toByteArray = other
  rfl

/-- Of the ledger that is loaded then, the first version is new and the second one is not. -/
theorem load_of_stopped_recordedOtherwise : ∃ t t' t'' r,
    emptyLedger.find? ledgerRoot = some FileTree.empty ∧
    (∀ q ∈ [Registry.recordedOnce, recordedTwice], Registry.Reachable q) ∧
    SavedAll ledgerRoot emptyLedger [Registry.recordedOnce, recordedTwice] t ∧
    load ledgerRoot t = .ok recordedTwice ∧ recordedOtherwise.Reachable ∧
    Stopped ledgerRoot recordedOtherwise t t' ∧ t'.RelistedAt ledgerRoot t'' ∧ t' ≠ t'' ∧
    load ledgerRoot t'' = .ok r ∧ r.items = [⟨"A", [otherFirst, secondEntry]⟩] ∧
    (∀ n ∈ recordedTwice.names, n ∈ r.names ∧ recordedTwice.versions n <+: r.versions n) ∧
    ∀ n, ∃ k, Spliced recordedOtherwise recordedTwice r n k := by
  have hroot : emptyLedger.find? ledgerRoot = some FileTree.empty := rfl
  have hsaved : SavedAll ledgerRoot emptyLedger [Registry.recordedOnce, recordedTwice]
      (ledgerOf [("v0.json", .file firstEntry.text.toByteArray),
        ("v1.json", .file secondEntry.text.toByteArray)]) :=
    .concat (.concat .nil saved_recordedOnce) (saved_recordedTwice (.inr ⟨_, rfl⟩))
  have hold := load_twoFiles firstEntry secondEntry ⟨rfl, rfl⟩ ⟨rfl, rfl⟩ (.refl _)
  have hsame : NameTable.empty.insert ⟨"A", [firstEntry, secondEntry]⟩ = recordedTwice :=
    NameTable.ext items_recordedTwice.symm
  rw [hsame] at hold
  have hnew := load_twoFiles otherFirst secondEntry ⟨rfl, rfl⟩ ⟨rfl, rfl⟩ (.swap _ _ _)
  have hrelisted : FileTree.RelistedAt ledgerRoot
      (ledgerOf [("v0.json", .file otherFirst.text.toByteArray),
        ("v1.json", .file secondEntry.text.toByteArray)])
      (ledgerOf [("v1.json", .file secondEntry.text.toByteArray),
        ("v0.json", .file otherFirst.text.toByteArray)]) :=
    relistedAt_ledgerOf (.swap _ _ _)
  obtain ⟨r, hload, hkept, hspliced⟩ := load_of_stopped hroot reachable_recorded hsaved hold
    reachable_recordedOtherwise stopped_recordedOtherwise hrelisted
  cases hload.symm.trans hnew
  exact ⟨_, _, _, _, hroot, reachable_recorded, hsaved, hold, reachable_recordedOtherwise,
    stopped_recordedOtherwise, hrelisted, by simp [ledgerOf], hload, rfl, hkept, hspliced⟩

end Ledger

end ShapeLedger
