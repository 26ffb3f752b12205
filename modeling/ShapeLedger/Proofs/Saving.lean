import Mathlib.Data.List.Pairwise
import ShapeLedger.Proofs.LedgerReadBack
import ShapeLedger.Proofs.Listing
import ShapeLedger.Proofs.Places

/-!
Saving as it is seen by loading. A save that succeeds puts the directory of
each type below the root, with the files that it had before, and into it the
file of each version in place of the one of that name. In the history that is
read there afterwards, each entry that was saved stands at the place of its
version, and what was there beyond them is kept.
-/

namespace ShapeLedger.Ledger

open FileTree (Route Effect put filesIn others)

/-! ### What a save puts below the root -/

/-- The files of a type's directory after entries were written into it. -/
def withEntries (files : List (String × FileTree)) (es : List Entry) :
    List (String × FileTree) :=
  es.foldl (fun files e => put (fileName e.version) (.file e.text.toByteArray) files) files

/-- The entries of the root after a history was saved. -/
def withHistory (entries : List (String × FileTree)) (h : History) : List (String × FileTree) :=
  put (directoryName h.typeName)
    (.directory (withEntries (filesIn entries (directoryName h.typeName)) h.entries)) entries

/-- There is room for a history below the root: its routes are not too long, and no file has the
name of its directory. -/
structure Fits (root : Route) (entries : List (String × FileTree)) (h : History) : Prop where
  directory : (root.join (directoryName h.typeName)).isAllowed = true
  free : ∀ content, entries.lookup (directoryName h.typeName) ≠ some (.file content)
  files : ∀ e ∈ h.entries,
    ((root.join (directoryName h.typeName)).join (fileName e.version)).isAllowed = true

variable {root : Route} {entries : List (String × FileTree)} {t t' : FileTree} {h : History}

theorem performAll_cons_eq_ok_iff {e : Effect} {es : List Effect} :
    performAll (e :: es) t = (t', .ok ()) ↔
      ∃ u, t.perform e = (u, true) ∧ performAll es u = (t', .ok ()) := by
  rw [performAll]
  split
  · rename_i u hu
    simp [hu]
  · rename_i u hu
    simp [hu]

theorem performAll_append_eq_ok_iff {es fs : List Effect} :
    performAll (es ++ fs) t = (t', .ok ()) ↔
      ∃ u, performAll es t = (u, .ok ()) ∧ performAll fs u = (t', .ok ()) := by
  induction es generalizing t with
  | nil => simp [performAll]
  | cons e es ih =>
    rw [List.cons_append, performAll_cons_eq_ok_iff]
    simp only [performAll_cons_eq_ok_iff, ih]
    constructor
    · rintro ⟨u, hu, v, hv, hfs⟩
      exact ⟨v, ⟨u, hu, hv⟩, hfs⟩
    · rintro ⟨v, ⟨u, hu, hv⟩, hfs⟩
      exact ⟨u, hu, v, hv, hfs⟩

theorem performAll_saveEffects_cons_eq_ok_iff {hs : List History} :
    performAll (saveEffects root (h :: hs)) t = (t', .ok ()) ↔
      ∃ u, performAll (historyEffects root h) t = (u, .ok ()) ∧
        performAll (saveEffects root hs) u = (t', .ok ()) := by
  rw [saveEffects, List.flatMap_cons, performAll_append_eq_ok_iff]
  rfl

theorem find?_of_writes {name : String} {files : List (String × FileTree)} {es : List Entry}
    (hroot : t.find? root = some (.directory entries))
    (hlookup : entries.lookup name = some (.directory files)) (hname : Route.isName name = true)
    (h : performAll (es.map fun e =>
      .write ((root.join name).join (fileName e.version)) e.text.toByteArray) t = (t', .ok ())) :
    (∀ e ∈ es, ((root.join name).join (fileName e.version)).isAllowed = true) ∧
      t'.find? root = some (.directory (put name (.directory (withEntries files es)) entries)) := by
  induction es generalizing t entries files with
  | nil =>
    cases h
    exact ⟨by simp, by rw [hroot, withEntries, List.foldl_nil, FileTree.put_of_lookup hlookup]⟩
  | cons e es ih =>
    rw [List.map_cons, performAll_cons_eq_ok_iff] at h
    obtain ⟨u, hu, hrest⟩ := h
    rw [FileTree.perform] at hu
    split at hu
    · rename_i t₁ hwrite
      cases hu
      obtain ⟨hallowed, hfind⟩ :=
        FileTree.find?_of_write hroot hlookup hname (isName_fileName e.version) hwrite
      obtain ⟨hes, hfind'⟩ := ih hfind (FileTree.lookup_put_self _ _ _) hrest
      refine ⟨fun x hx => ?_, ?_⟩
      · rcases List.mem_cons.mp hx with rfl | hx
        · exact hallowed
        · exact hes x hx
      · rw [hfind', FileTree.put_put]
        rfl
    · cases hu

/-- What a history that was saved did to the entries of the root. -/
theorem find?_of_historyEffects (hroot : t.find? root = some (.directory entries))
    (hname : h.typeName ≠ "") (hsaved : performAll (historyEffects root h) t = (t', .ok ())) :
    Fits root entries h ∧ t'.find? root = some (.directory (withHistory entries h)) := by
  rw [historyEffects, performAll_cons_eq_ok_iff] at hsaved
  obtain ⟨u, hmade, hwritten⟩ := hsaved
  have hisName := isName_directoryName hname
  obtain ⟨hallowed, hfree, hfind⟩ := FileTree.find?_of_makeDirectory hroot hisName hmade
  obtain ⟨hfiles, hfind'⟩ :=
    find?_of_writes hfind (FileTree.lookup_put_self _ _ _) hisName hwritten
  rw [FileTree.put_put] at hfind'
  exact ⟨⟨hallowed, hfree, hfiles⟩, hfind'⟩

theorem filesIn_withHistory (entries : List (String × FileTree)) (h : History) (name : String) :
    filesIn (withHistory entries h) name =
      if name = directoryName h.typeName then withEntries (filesIn entries name) h.entries
      else filesIn entries name := by
  rw [withHistory, FileTree.filesIn_put]
  by_cases hname : name = directoryName h.typeName
  · rw [if_pos hname, if_pos hname, hname]
  · rw [if_neg hname, if_neg hname]

/-- Saving one history leaves the room for another one. -/
theorem fits_withHistory_iff {x : History} (hx : Fits root entries x) :
    Fits root (withHistory entries x) h ↔ Fits root entries h := by
  have hlookup : (∀ content, (withHistory entries x).lookup (directoryName h.typeName) ≠
      some (.file content)) ↔
      ∀ content, entries.lookup (directoryName h.typeName) ≠ some (.file content) := by
    rw [withHistory, FileTree.lookup_put]
    split
    · rename_i hsame
      rw [hsame]
      exact ⟨fun _ => hx.free, fun _ => nofun⟩
    · rfl
  exact ⟨fun hh => ⟨hh.directory, hlookup.mp hh.free, hh.files⟩,
    fun hh => ⟨hh.directory, hlookup.mpr hh.free, hh.files⟩⟩

/-- What a save did to the entries of the root. -/
theorem find?_of_saveEffects {hs : List History} (hroot : t.find? root = some (.directory entries))
    (hnamed : ∀ h ∈ hs, h.typeName ≠ "")
    (hsaved : performAll (saveEffects root hs) t = (t', .ok ())) :
    (∀ h ∈ hs, Fits root entries h) ∧
      t'.find? root = some (.directory (hs.foldl withHistory entries)) := by
  induction hs generalizing t entries with
  | nil =>
    cases hsaved
    exact ⟨nofun, hroot⟩
  | cons h hs ih =>
    obtain ⟨u, hu, hrest⟩ := performAll_saveEffects_cons_eq_ok_iff.mp hsaved
    obtain ⟨hfits, hfind⟩ := find?_of_historyEffects hroot (hnamed h List.mem_cons_self) hu
    obtain ⟨hfits', hfind'⟩ := ih hfind (fun x hx => hnamed x (List.mem_cons_of_mem _ hx)) hrest
    refine ⟨fun x hx => ?_, hfind'⟩
    rcases List.mem_cons.mp hx with rfl | hx
    · exact hfits
    · exact (fits_withHistory_iff hfits).mp (hfits' x hx)

/-- What each saved history keeps to be true is true after a save. -/
theorem foldl_withHistory_preserves {P : List (String × FileTree) → Prop} {hs : List History}
    (hP : P entries) (hfits : ∀ h ∈ hs, Fits root entries h)
    (step : ∀ {entries h}, h ∈ hs → Fits root entries h → P entries → P (withHistory entries h)) :
    P (hs.foldl withHistory entries) := by
  induction hs generalizing entries with
  | nil => exact hP
  | cons h hs ih =>
    have hh := hfits h List.mem_cons_self
    refine ih (step List.mem_cons_self hh hP) (fun x hx => ?_)
      fun hx => step (List.mem_cons_of_mem _ hx)
    exact (fits_withHistory_iff hh).mpr (hfits x (List.mem_cons_of_mem _ hx))

/-! ### What is read there afterwards -/

/-- Puts an entry at the place of its version, or at the end. -/
def place (es : List Entry) (e : Entry) : List Entry :=
  if e.version.toNat < es.length then es.set e.version.toNat e else es ++ [e]

variable {directory : Route} {typeName : String} {files : List (String × FileTree)}
  {es old : List Entry} {e : Entry}

theorem getElem?_place (h : e.version.toNat ≤ es.length) (i : Nat) :
    (place es e)[i]? = if e.version.toNat = i then some e else es[i]? := by
  rw [place]
  split
  · rename_i hlt
    rw [List.getElem?_set]
    split <;> rfl
  · rename_i hge
    have hlength : e.version.toNat = es.length := by omega
    rw [hlength, List.getElem?_append]
    split
    · rw [if_neg (by omega)]
    · rename_i hi
      split
      · rename_i heq
        simp [← heq]
      · rw [List.getElem?_eq_none (by simp; omega), List.getElem?_eq_none (by omega)]

theorem length_place (h : e.version.toNat ≤ es.length) :
    (place es e).length = max es.length (e.version.toNat + 1) := by
  rw [place]
  split
  · rw [List.length_set]
    omega
  · rw [List.length_append, List.length_singleton]
    omega

theorem Numbered.place (hes : Numbered es) (h : e.version.toNat ≤ es.length) :
    Numbered (place es e) := by
  intro i x hx
  rw [getElem?_place h] at hx
  split at hx
  · cases hx
    assumption
  · exact hes i x hx

theorem readEntry_text {r : Route} (hallowed : r.isAllowed = true) (hname : e.typeName = typeName) :
    readEntry r typeName e.version (.file e.text.toByteArray) = .ok e := by
  simp [readEntry, hallowed, textOf?_text, Entry.ofText?_text, hname]

theorem entryOf?_text {name : String} (hversion : version? name = some e.version)
    (hallowed : (directory.join name).isAllowed = true) (hname : e.typeName = typeName) :
    entryOf? directory typeName (name, .file e.text.toByteArray) = .ok (some e) := by
  simp [entryOf?, hversion, readEntry_text hallowed hname, Except.map]

/-- No other file than the one that a save writes is taken for the version. -/
def Unaliased (files : List (String × FileTree)) (version : UInt32) : Prop :=
  ∀ name ∈ files.map Prod.fst, version? name = some version → name = fileName version

theorem set_perm_of_perm {α : Type} {as bs : List α} {i : Nat} {a b : α} (h : as.Perm (a :: bs))
    (hi : as[i]? = some a) : (as.set i b).Perm (b :: bs) := by
  obtain ⟨hlt, rfl⟩ := List.getElem?_eq_some_iff.mp hi
  have hrest : (as.eraseIdx i).Perm bs :=
    ((List.getElem_cons_eraseIdx_perm hlt).trans h).cons_inv
  exact (List.set_perm_cons_eraseIdx hlt b).trans (hrest.cons b)

/-- If no file is taken for a version, there is no entry of it. -/
theorem length_le_of_lookup_eq_none {read : List Entry} {version : UInt32}
    (hread : readEntries directory typeName files = .ok read) (hperm : read.Perm old)
    (hnumbered : Numbered old) (hunaliased : Unaliased files version)
    (hlookup : files.lookup (fileName version) = none) : old.length ≤ version.toNat := by
  by_contra hlt
  have hx := List.getElem?_eq_getElem (Nat.not_le.mp hlt)
  have hsame := UInt32.toNat_inj.mp (hnumbered _ _ hx)
  have hmem := List.mem_map_of_mem (f := Entry.version)
    (hperm.mem_iff.mpr (List.mem_of_getElem? hx))
  rw [map_version_of_readEntries hread, List.mem_filterMap] at hmem
  obtain ⟨f, hf, hversion⟩ := hmem
  have hne := List.lookup_eq_none_iff.mp hlookup f hf
  rw [hunaliased f.1 (List.mem_map_of_mem hf) (hversion.trans (congrArg some hsame))] at hne
  simp at hne

/-- An entry that is written into its file stands at its place. -/
theorem readHistory_put (hread : readHistory directory typeName files = .ok old)
    (hnodup : (files.map Prod.fst).Nodup) (hunaliased : Unaliased files e.version)
    (hname : e.typeName = typeName) (hversion : e.version.toNat ≤ old.length)
    (hallowed : (directory.join (fileName e.version)).isAllowed = true) :
    readHistory directory typeName
      (put (fileName e.version) (.file e.text.toByteArray) files) = .ok (place old e) := by
  obtain ⟨read, hread, hperm, hnumbered⟩ := readHistory_eq_ok_iff.mp hread
  rw [readHistory_perm (FileTree.put_perm hnodup _ _), readHistory_eq_ok_iff]
  have htext := entryOf?_text (version?_fileName e.version) hallowed hname
  cases hlookup : files.lookup (fileName e.version) with
  | none =>
    have hlength := length_le_of_lookup_eq_none hread hperm hnumbered hunaliased hlookup
    rw [FileTree.others_of_lookup_eq_none hlookup]
    refine ⟨e :: read, readEntries_cons_eq_ok_iff.mpr ⟨some e, read, htext, hread, rfl⟩, ?_,
      hnumbered.place hversion⟩
    rw [place, if_neg (Nat.not_lt.mpr hlength)]
    exact (hperm.cons e).trans (List.perm_append_singleton e old).symm
  | some file =>
    obtain ⟨read', hread', hperm'⟩ :=
      readEntries_perm (FileTree.perm_of_lookup hnodup hlookup) hread
    obtain ⟨o, rest, ho, hrest, rfl⟩ := readEntries_cons_eq_ok_iff.mp hread'
    obtain ⟨e', rfl, hsame⟩ := exists_of_entryOf? ho (version?_fileName e.version)
    refine ⟨e :: rest, readEntries_cons_eq_ok_iff.mpr ⟨some e, rest, htext, hrest, rfl⟩, ?_,
      hnumbered.place hversion⟩
    have hold : old.Perm (e' :: rest) := hperm.symm.trans hperm'
    obtain ⟨i, hi⟩ := List.getElem?_of_mem (hold.mem_iff.mpr List.mem_cons_self)
    have hplace : e.version.toNat = i := by rw [← hsame, hnumbered i e' hi]
    have hlt : e.version.toNat < old.length := hplace ▸ (List.getElem?_eq_some_iff.mp hi).1
    rw [place, if_pos hlt, hplace]
    exact (set_perm_of_perm hold hi).symm

/-- A file that is written has the usual name of its version. -/
theorem unaliased_put_iff {version w : UInt32} {file : FileTree} :
    Unaliased (put (fileName w) file files) version ↔ Unaliased files version := by
  constructor
  · exact fun h name hname => h name (FileTree.mem_names_put.mpr (.inr hname))
  · intro h name hname hversion
    rcases FileTree.mem_names_put.mp hname with rfl | hname
    · rw [version?_fileName, Option.some.injEq] at hversion
      rw [hversion]
    · exact h name hname hversion

theorem unaliased_withEntries_iff {version : UInt32} :
    Unaliased (withEntries files es) version ↔ Unaliased files version := by
  induction es generalizing files with
  | nil => rfl
  | cons e es ih => exact ih.trans unaliased_put_iff

/-- A file that is taken for a version is the only one for it where the history can be read. -/
theorem unaliased_of_readHistory {version : UInt32}
    (hread : readHistory directory typeName files = .ok es)
    (husual : fileName version ∈ files.map Prod.fst) : Unaliased files version := by
  have hnodup := nodup_versions_of_readHistory hread
  rw [← Function.comp_def version? Prod.fst, ← List.filterMap_map] at hnodup
  have hpairwise := List.pairwise_filterMap.mp hnodup
  have hsymm : Std.Symm fun a b =>
      ∀ v, version? a = some v → ∀ w, version? b = some w → v ≠ w :=
    ⟨fun a b hab v hv w hw => (hab w hw v hv).symm⟩
  intro name hname hversion
  by_contra hne
  have hother := hpairwise.forall hname husual hne
  exact hother version hversion version (version?_fileName version) rfl

/-- The entries are numbered by their places, counted from `k`. Numbers begin again at zero when
there are no more. -/
def NumberedFrom (k : Nat) (es : List Entry) : Prop :=
  ∀ (i : Nat) (e : Entry), es[i]? = some e → e.version = UInt32.ofNat (k + i)

theorem NumberedFrom.tail {k : Nat} (h : NumberedFrom k (e :: es)) : NumberedFrom (k + 1) es := by
  intro i x hx
  rw [h (i + 1) x hx]
  congr 1
  omega

theorem NumberedFrom.beginning {k : Nat} (h : NumberedFrom k es) (hbegins : old <+: es) :
    NumberedFrom k old := by
  intro i x hx
  obtain ⟨hi, rfl⟩ := List.getElem?_eq_some_iff.mp hx
  exact h i _ (List.prefix_iff_getElem?.mp hbegins i hi)

theorem toNat_version_le {k : Nat} (h : NumberedFrom k (e :: es))
    (hk : min k UInt32.size ≤ old.length) : e.version.toNat ≤ old.length ∧
      min (k + 1) UInt32.size ≤ (place old e).length := by
  have hversion : e.version.toNat = k % UInt32.size := by
    rw [h 0 e rfl, UInt32.toNat_ofNat', Nat.add_zero]
  have hle : e.version.toNat ≤ old.length := by
    rw [hversion]
    by_cases hlt : k < UInt32.size
    · rw [Nat.mod_eq_of_lt hlt]
      omega
    · have hmod := Nat.mod_lt k (show 0 < UInt32.size by decide)
      omega
  refine ⟨hle, ?_⟩
  rw [length_place hle, hversion]
  by_cases hlt : k < UInt32.size
  · rw [Nat.mod_eq_of_lt hlt]
    omega
  · omega

/-- Entries that are written one after the other stand at their places. -/
theorem readHistory_withEntries {k : Nat} (hread : readHistory directory typeName files = .ok old)
    (hnodup : (files.map Prod.fst).Nodup) (hunaliased : ∀ e ∈ es, Unaliased files e.version)
    (hname : ∀ e ∈ es, e.typeName = typeName) (hnumbered : NumberedFrom k es)
    (hk : min k UInt32.size ≤ old.length)
    (hallowed : ∀ e ∈ es, (directory.join (fileName e.version)).isAllowed = true) :
    readHistory directory typeName (withEntries files es) = .ok (es.foldl place old) := by
  induction es generalizing files old k with
  | nil => exact hread
  | cons e es ih =>
    obtain ⟨hversion, hlength⟩ := toNat_version_le hnumbered hk
    have hput := readHistory_put hread hnodup (hunaliased e List.mem_cons_self)
      (hname e List.mem_cons_self) hversion (hallowed e List.mem_cons_self)
    exact ih hput (FileTree.nodup_put hnodup _ _)
      (fun x hx => unaliased_put_iff.mpr (hunaliased x (List.mem_cons_of_mem _ hx)))
      (fun x hx => hname x (List.mem_cons_of_mem _ hx)) hnumbered.tail hlength
      fun x hx => hallowed x (List.mem_cons_of_mem _ hx)

/-- The last entry of the version that a place stands for. -/
def lastAt (es : List Entry) (i : Nat) : Option Entry :=
  es.reverse.find? fun e => e.version.toNat = i

theorem mem_of_lastAt {i : Nat} (h : lastAt es i = some e) : e ∈ es ∧ e.version.toNat = i :=
  ⟨List.mem_reverse.mp (List.mem_of_find?_eq_some h), by simpa using List.find?_some h⟩

/-- Each number up to that of the last place is the version of an entry. -/
theorem lastAt_eq_none_iff {i : Nat} (h : NumberedFrom 0 es) (hi : i < UInt32.size) :
    lastAt es i = none ↔ es.length ≤ i := by
  rw [lastAt, List.find?_eq_none]
  constructor
  · intro hnone
    by_contra hlt
    have hplace := List.getElem?_eq_getElem (Nat.not_le.mp hlt)
    have hmem := List.mem_reverse.mpr (List.mem_of_getElem? hplace)
    refine hnone _ hmem (decide_eq_true ?_)
    rw [h i _ hplace, Nat.zero_add, UInt32.toNat_ofNat_of_lt' hi]
  · intro hlength e he hversion
    obtain ⟨j, hj⟩ := List.getElem?_of_mem (List.mem_reverse.mp he)
    have hlt := (List.getElem?_eq_some_iff.mp hj).1
    rw [decide_eq_true_iff, h j e hj, Nat.zero_add, UInt32.toNat_ofNat_of_lt' (by omega)]
      at hversion
    omega

theorem lastAt_zero_eq_none_iff (h : NumberedFrom 0 es) : lastAt es 0 = none ↔ es = [] := by
  rw [lastAt_eq_none_iff h (by decide), Nat.le_zero, List.length_eq_zero_iff]

theorem getElem?_foldl_place {k : Nat} (hnumbered : NumberedFrom k es)
    (hk : min k UInt32.size ≤ old.length) (i : Nat) :
    (es.foldl place old)[i]? = (lastAt es i).or old[i]? := by
  induction es generalizing old k with
  | nil => rfl
  | cons e es ih =>
    obtain ⟨hversion, hlength⟩ := toNat_version_le hnumbered hk
    rw [List.foldl_cons, ih hnumbered.tail hlength, getElem?_place hversion, lastAt, lastAt,
      List.reverse_cons, List.find?_append, List.find?_cons]
    by_cases hi : e.version.toNat = i <;> simp [hi]

theorem nodup_withEntries (hnodup : (files.map Prod.fst).Nodup) (es : List Entry) :
    ((withEntries files es).map Prod.fst).Nodup := by
  induction es generalizing files with
  | nil => exact hnodup
  | cons e es ih => exact ih (FileTree.nodup_put hnodup _ _)

/-- The files that were there before, and those of the entries. -/
theorem mem_names_withEntries {name : String} : name ∈ (withEntries files es).map Prod.fst ↔
    name ∈ files.map Prod.fst ∨ ∃ e ∈ es, name = fileName e.version := by
  induction es generalizing files with
  | nil => simp [withEntries]
  | cons e es ih =>
    rw [withEntries, List.foldl_cons, ← withEntries, ih, FileTree.mem_names_put]
    simp only [List.mem_cons, exists_eq_or_imp]
    tauto

theorem foldl_place_ne_nil (h : old ≠ [] ∨ es ≠ []) : es.foldl place old ≠ [] := by
  induction es generalizing old with
  | nil => exact h.resolve_right fun hne => hne rfl
  | cons e es ih =>
    refine ih (.inl ?_)
    rw [place]
    split
    · rename_i hlt
      intro hset
      rw [← List.length_set (a := e) (i := e.version.toNat), hset] at hlt
      cases hlt
    · simp

theorem length_le_foldl_place (es old : List Entry) :
    old.length ≤ (es.foldl place old).length := by
  induction es generalizing old with
  | nil => exact Nat.le_refl _
  | cons e es ih =>
    have hplace : old.length ≤ (place old e).length := by
      rw [place]
      split
      · exact Nat.le_of_eq List.length_set.symm
      · simp
    exact Nat.le_trans hplace (ih _)

theorem Numbered.numberedFrom (h : Numbered es) : NumberedFrom 0 es := by
  intro i x hx
  rw [Nat.zero_add, ← h i x hx, UInt32.ofNat_toNat]

theorem Numbered.lastAt_eq (h : Numbered es) (i : Nat) : lastAt es i = es[i]? := by
  cases hlast : lastAt es i with
  | none =>
    cases hi : es[i]? with
    | none => rfl
    | some e =>
      have hne := List.find?_eq_none.mp hlast e (List.mem_reverse.mpr (List.mem_of_getElem? hi))
      exact absurd (decide_eq_true (h i e hi)) hne
  | some e =>
    obtain ⟨hmem, hversion⟩ := mem_of_lastAt hlast
    obtain ⟨j, hj⟩ := List.getElem?_of_mem hmem
    rw [← hversion, h j e hj, hj]

/-- Entries that go on from those that are there take their places. -/
theorem foldl_place_eq (h : Numbered es) (hold : old <+: es) : es.foldl place old = es := by
  refine List.ext_getElem? fun i => ?_
  rw [getElem?_foldl_place h.numberedFrom (Nat.zero_le _), h.lastAt_eq]
  cases hi : es[i]? with
  | some e => rfl
  | none =>
    have hlength := hold.length_le
    rw [List.getElem?_eq_none_iff] at hi
    rw [Option.none_or, List.getElem?_eq_none_iff]
    omega

/-- Nor do entries change that were there already. -/
theorem foldl_place_eq_of_former (h : Numbered es) (hold : old ≠ [] → old = es) :
    es.foldl place old = es := by
  refine foldl_place_eq h ?_
  by_cases hnil : old = []
  · rw [hnil]
    exact List.nil_prefix
  · obtain rfl := hold hnil
    exact List.prefix_refl _

end ShapeLedger.Ledger
