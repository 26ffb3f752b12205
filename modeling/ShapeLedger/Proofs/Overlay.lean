import ShapeLedger.Proofs.Requests
import ShapeLedger.Proofs.Saving
import ShapeLedger.Proofs.Sessions

/-!
Registries that are saved one after the other below one root. What stands there
is the latest of each version of each type: a registry that was saved later
covers those before it and takes nothing away. So a registry that goes on from
the one before it, or from what is loaded of that, is loaded as it was saved.
-/

namespace ShapeLedger

open FileTree (Route put filesIn)

theorem History.Sound.numberedFrom {h : History} (hh : h.Sound) :
    Ledger.NumberedFrom 0 h.entries := by
  intro i e he
  rw [Nat.zero_add]
  exact hh.numbered i e he

namespace Registry

variable {r s : Registry} {n : String}

theorem entries_insert_self (r : Registry) (h : History) :
    entries (r.insert h) h.typeName = h.entries := by
  rw [entries, NameTable.find?_insert, if_pos rfl]

theorem entries_insert_of_ne (r : Registry) {h : History} (hne : h.typeName ≠ n) :
    entries (r.insert h) n = r.entries n := by
  rw [entries, NameTable.find?_insert, if_neg hne, entries]

theorem entries_of_mem {h : History} (hmem : h ∈ r.items) : r.entries h.typeName = h.entries := by
  rw [entries, NameTable.find?_of_mem hmem]

theorem length_entries_lt {bound : Nat} (hpos : 0 < bound)
    (h : ∀ h ∈ r.items, h.entries.length < bound) (n : String) :
    (r.entries n).length < bound := by
  rw [entries]
  split
  · exact h _ (NameTable.mem_of_find? ‹_›)
  · exact hpos

theorem exists_of_entries_ne_nil (h : r.entries n ≠ []) :
    ∃ x ∈ r.items, x.typeName = n ∧ x.entries = r.entries n := by
  rw [entries] at h ⊢
  split at h
  · rename_i x hx
    exact ⟨x, NameTable.mem_of_find? hx, NameTable.nameOf_of_find? hx, rfl⟩
  · exact absurd rfl h

theorem mem_names_iff (hr : r.Sound) : n ∈ r.names ↔ r.entries n ≠ [] := by
  constructor
  · intro hn
    obtain ⟨h, hmem, rfl⟩ := List.mem_map.mp hn
    rw [entries_of_mem hmem]
    exact (hr h hmem).nonempty
  · intro hn
    obtain ⟨h, hmem, rfl, -⟩ := exists_of_entries_ne_nil hn
    exact List.mem_map_of_mem hmem

/-- Sound registries with the same histories are equal. -/
theorem Sound.ext_entries (hr : r.Sound) (hs : s.Sound) (h : ∀ n, r.entries n = s.entries n) :
    r = s := by
  have hfind {r : Registry} (hr : r.Sound) (n : String) :
      r.find? n = if r.entries n = [] then none else some ⟨n, r.entries n⟩ := by
    split
    · exact hr.entries_eq_nil_iff.mp ‹_›
    · rename_i hne
      obtain ⟨x, hx, hname, hentries⟩ := exists_of_entries_ne_nil hne
      rw [← hentries, ← hname, NameTable.find?_of_mem hx]
  refine NameTable.ext_find? fun n => ?_
  rw [hfind hr, hfind hs, h]

theorem Sound.numberedFrom (hr : r.Sound) (n : String) : Ledger.NumberedFrom 0 (r.entries n) := by
  intro i e he
  rw [Nat.zero_add]
  exact hr.numbered he

/-- As long as there are numbers for all versions of a type, each stands at the place of its own. -/
theorem Sound.numbered_of_le (hr : r.Sound) (h : (r.entries n).length ≤ UInt32.size) :
    Ledger.Numbered (r.entries n) := by
  intro i e he
  have hi := (List.getElem?_eq_some_iff.mp he).1
  rw [hr.numbered he, UInt32.toNat_ofNat_of_lt' (by omega)]

/-- The entry of that version; the last of them if the numbers have begun again. -/
def held? (r : Registry) (n : String) (version : UInt32) : Option Entry :=
  (r.entries n).reverse.find? fun e => e.version = version

theorem held?_eq_lastAt (r : Registry) (n : String) (version : UInt32) :
    r.held? n version = Ledger.lastAt (r.entries n) version.toNat := by
  simp only [held?, Ledger.lastAt, UInt32.toNat_inj]

theorem Sound.held?_eq_version? (hr : r.Sound) (h : (r.entries n).length ≤ UInt32.size)
    (version : UInt32) : r.held? n version = r.version? n version := by
  rw [held?_eq_lastAt, (hr.numbered_of_le h).lastAt_eq, version?]

/-- The registry after further requests. -/
def served (r : Registry) (qs : List Request) : Registry := qs.foldl (fun r q => (r.serve q).1) r

theorem served_keeps_entries (r : Registry) (qs : List Request) (n : String) :
    r.entries n <+: (r.served qs).entries n := by
  induction qs generalizing r with
  | nil => exact List.prefix_refl _
  | cons q qs ih => exact (r.serve_keeps_entries q n).trans (ih _)

theorem Sound.served (hr : r.Sound) (qs : List Request) : (r.served qs).Sound := by
  induction qs generalizing r with
  | nil => exact hr
  | cons q qs ih => exact ih (serve_preserves (fun h hr => hr.record h) hr q)

end Registry

namespace Ledger

variable {root : Route} {entries : List (String × FileTree)} {t t' : FileTree}
  {r s : Registry} {h : History} {n : String}

/-! ### One history after the other -/

/-- The registry with a history laid over its own one of the type. -/
def overlay (r : Registry) (h : History) : Registry :=
  r.insert ⟨h.typeName, h.entries.foldl place (r.entries h.typeName)⟩

theorem entries_overlay_self (r : Registry) (h : History) :
    (overlay r h).entries h.typeName = h.entries.foldl place (r.entries h.typeName) :=
  Registry.entries_insert_self r _

theorem entries_overlay_of_ne (r : Registry) (hne : h.typeName ≠ n) :
    (overlay r h).entries n = r.entries n :=
  Registry.entries_insert_of_ne r hne

/-- The files of a type's directory as saving leaves them, with the history of the type. -/
structure Holds (root : Route) (r : Registry) (n : String) (files : List (String × FileTree)) :
    Prop where
  named : n ≠ ""
  allowed : (root.join (directoryName n)).isAllowed = true
  nodup : (files.map Prod.fst).Nodup
  plain : ∀ f ∈ files, ∃ version, f.1 = fileName version
  history : readHistory (root.join (directoryName n)) n files = .ok (r.entries n)

/-- The root has a directory for each type of the registry, and no others but empty ones. -/
structure Stands (root : Route) (entries : List (String × FileTree)) (r : Registry) : Prop where
  nodup : (entries.map Prod.fst).Nodup
  directories : ∀ u ∈ entries, ∃ n files, u = (directoryName n, .directory files) ∧
    Holds root r n files
  types : ∀ h ∈ r.items, h.typeName ≠ "" ∧ h.entries ≠ [] ∧
    ∃ files, (directoryName h.typeName, .directory files) ∈ entries

theorem stands_empty (root : Route) : Stands root [] NameTable.empty :=
  ⟨List.nodup_nil, nofun, nofun⟩

theorem Holds.historyOf? {files : List (String × FileTree)} (h : Holds root r n files) :
    historyOf? root (directoryName n, .directory files) =
      .ok (if r.entries n = [] then none else some ⟨n, r.entries n⟩) := by
  rw [historyOf?_directory, if_pos h.allowed, typeName?_directoryName h.named]
  simp only [h.history, Except.map]

/-- What stands below the root is what is loaded. -/
theorem Stands.loads (h : Stands root entries r) : Loads root entries r := by
  constructor
  · intro u hu
    obtain ⟨n, files, rfl, hholds⟩ := h.directories u hu
    exact ⟨_, hholds.historyOf?⟩
  · intro x
    constructor
    · intro hx
      obtain ⟨-, hnonempty, files, hfiles⟩ := h.types x hx
      obtain ⟨n, files', heq, hholds⟩ := h.directories _ hfiles
      obtain ⟨hsame, -⟩ := Prod.mk.inj heq
      cases directoryName_inj hsame
      refine ⟨_, hfiles, ?_⟩
      rw [heq, hholds.historyOf?, Registry.entries_of_mem hx, if_neg hnonempty]
    · rintro ⟨u, hu, hread⟩
      obtain ⟨n, files, rfl, hholds⟩ := h.directories u hu
      rw [hholds.historyOf?, Except.ok.injEq] at hread
      split at hread
      · cases hread
      · rename_i hnonempty
        cases hread
        obtain ⟨x, hx, rfl, hentries⟩ := Registry.exists_of_entries_ne_nil hnonempty
        rw [← hentries]
        exact hx

/-- The files that the directory of a type has before it is saved. -/
theorem Stands.holds_filesIn (hstands : Stands root entries r) (hfits : Fits root entries h)
    (hname : h.typeName ≠ "") :
    Holds root r h.typeName (filesIn entries (directoryName h.typeName)) := by
  rw [filesIn]
  cases hlookup : entries.lookup (directoryName h.typeName) with
  | none =>
    have hnil : r.entries h.typeName = [] := by
      by_contra hne
      obtain ⟨x, hx, htype, -⟩ := Registry.exists_of_entries_ne_nil hne
      obtain ⟨-, -, files, hfiles⟩ := hstands.types x hx
      rw [htype] at hfiles
      rw [FileTree.lookup_of_mem hstands.nodup hfiles] at hlookup
      cases hlookup
    exact ⟨hname, hfits.directory, List.nodup_nil, List.forall_mem_nil _,
      by rw [hnil]; exact readHistory_nil⟩
  | some u =>
    cases u with
    | file content => exact absurd hlookup (hfits.free content)
    | directory files =>
      obtain ⟨n, files', heq, hholds⟩ :=
        hstands.directories _ (FileTree.mem_of_lookup hlookup)
      obtain ⟨hsame, hfiles⟩ := Prod.mk.inj heq
      cases directoryName_inj hsame
      cases hfiles
      exact hholds

theorem Holds.withEntries {files : List (String × FileTree)}
    (hholds : Holds root r h.typeName files) (hfits : Fits root entries h) (hsound : h.Sound) :
    Holds root (overlay r h) h.typeName (withEntries files h.entries) := by
  refine ⟨hholds.named, hholds.allowed, nodup_withEntries hholds.nodup _, fun f hf => ?_, ?_⟩
  · rcases mem_names_withEntries.mp (List.mem_map_of_mem hf) with hmem | ⟨e, -, hname⟩
    · obtain ⟨g, hg, hsame⟩ := List.mem_map.mp hmem
      rw [← hsame]
      exact hholds.plain g hg
    · exact ⟨e.version, hname⟩
  · rw [entries_overlay_self]
    refine readHistory_withEntries hholds.history hholds.nodup (fun e _ name hname hversion => ?_)
      hsound.owned hsound.numberedFrom (Nat.zero_le _) hfits.files
    obtain ⟨f, hf, rfl⟩ := List.mem_map.mp hname
    obtain ⟨version, hplain⟩ := hholds.plain f hf
    rw [hplain, version?_fileName, Option.some.injEq] at hversion
    rw [hplain, hversion]

/-- A directory is put there that holds the history of its type, and the other histories stay. -/
theorem Stands.putDirectory {r' : Registry} {files : List (String × FileTree)}
    (hstands : Stands root entries r) (hholds : Holds root r' n files)
    (hothers : ∀ m, n ≠ m → r'.entries m = r.entries m)
    (htypes : ∀ x ∈ r'.items, x.typeName ≠ "" ∧ x.entries ≠ [] ∧
      (x.typeName = n ∨ x ∈ r.items)) :
    Stands root (put (directoryName n) (.directory files) entries) r' := by
  refine ⟨FileTree.nodup_put hstands.nodup _ _, fun u hu => ?_, fun x hx => ?_⟩
  · rcases (FileTree.mem_put hstands.nodup).mp hu with rfl | ⟨hu, hne⟩
    · exact ⟨n, files, rfl, hholds⟩
    · obtain ⟨m, others, rfl, hm⟩ := hstands.directories u hu
      have hsame := hothers m fun heq => hne (heq ▸ rfl)
      exact ⟨m, others, rfl, hm.named, hm.allowed, hm.nodup, hm.plain, by rw [hsame]; exact hm.history⟩
  · obtain ⟨hname, hnonempty, hx⟩ := htypes x hx
    refine ⟨hname, hnonempty, ?_⟩
    by_cases hsame : x.typeName = n
    · rw [hsame]
      exact ⟨files, (FileTree.mem_put hstands.nodup).mpr (.inl rfl)⟩
    · obtain ⟨-, -, others, hmem⟩ := hstands.types x (hx.resolve_left hsame)
      refine ⟨others, (FileTree.mem_put hstands.nodup).mpr (.inr ⟨hmem, fun hdirectory => ?_⟩)⟩
      exact hsame (directoryName_inj hdirectory)

/-- Saving a history lays it over the one that stands there. -/
theorem Stands.withHistory (hstands : Stands root entries r) (hfits : Fits root entries h)
    (hsound : h.Sound) : Stands root (withHistory entries h) (overlay r h) := by
  have hfiles := (hstands.holds_filesIn hfits hsound.named).withEntries hfits hsound
  refine hstands.putDirectory hfiles (fun m hm => entries_overlay_of_ne r hm) fun x hx => ?_
  rcases NameTable.mem_fileIn hx with rfl | hx
  · exact ⟨hsound.named, foldl_place_ne_nil (.inr hsound.nonempty), .inl rfl⟩
  · obtain ⟨hname, hnonempty, -⟩ := hstands.types x hx
    exact ⟨hname, hnonempty, .inr hx⟩

/-! ### Whole registries -/

/-- The entries of a type in a list of histories. -/
def entriesOf (hs : List History) (n : String) : List Entry :=
  (hs.filter fun h => h.typeName = n).flatMap History.entries

theorem entriesOf_cons (h : History) (hs : List History) (n : String) :
    entriesOf (h :: hs) n =
      if h.typeName = n then h.entries ++ entriesOf hs n else entriesOf hs n := by
  split
  · rw [entriesOf, List.filter_cons_of_pos (by simpa), List.flatMap_cons, ← entriesOf]
  · rw [entriesOf, List.filter_cons_of_neg (by simpa), ← entriesOf]

theorem entriesOf_perm_items {hs : List History} (h : hs.Perm s.items) (n : String) :
    entriesOf hs n = s.entries n := by
  have hperm := h.filter fun h => h.typeName = n
  rw [NameTable.filter_items] at hperm
  rw [entriesOf, Registry.entries]
  cases hfind : s.find? n with
  | none =>
    rw [hfind] at hperm
    rw [hperm.eq_nil]
    rfl
  | some x =>
    rw [hfind] at hperm
    rw [List.perm_singleton.mp hperm]
    exact List.append_nil _

/-- A history that can be saved below a registry that stands there. Of one without entries only
the directory is made. -/
def Writable (h : History) : Prop := h.Sound ∨ h.typeName ≠ "" ∧ h.entries = []

/-- Saving a history lays it over the one that stands there. A directory that is made for a type
changes nothing. -/
theorem Stands.written (hstands : Stands root entries r) (hfits : Fits root entries h)
    (hwritable : Writable h) : ∃ r', Stands root (Ledger.withHistory entries h) r' ∧ ∀ n,
      r'.entries n =
        if h.typeName = n then h.entries.foldl place (r.entries n) else r.entries n := by
  rcases hwritable with hsound | ⟨hname, hnil⟩
  · refine ⟨overlay r h, hstands.withHistory hfits hsound, fun n => ?_⟩
    split
    · rename_i hn
      rw [← hn, entries_overlay_self]
    · exact entries_overlay_of_ne r ‹_›
  · have hfiles := hstands.holds_filesIn hfits hname
    rw [Ledger.withHistory, hnil]
    refine ⟨r, hstands.putDirectory hfiles (fun _ _ => rfl) fun x hx => ?_, fun n => by simp⟩
    obtain ⟨hname, hnonempty, -⟩ := hstands.types x hx
    exact ⟨hname, hnonempty, .inr hx⟩

theorem Stands.foldl_written {hs : List History} (hstands : Stands root entries r)
    (hfits : ∀ h ∈ hs, Fits root entries h) (hwritable : ∀ h ∈ hs, Writable h) :
    ∃ r', Stands root (hs.foldl Ledger.withHistory entries) r' ∧
      ∀ n, r'.entries n = (entriesOf hs n).foldl place (r.entries n) := by
  induction hs generalizing entries r with
  | nil => exact ⟨r, hstands, fun n => rfl⟩
  | cons h hs ih =>
    have hh := hfits h List.mem_cons_self
    obtain ⟨q, hq, hentries⟩ := hstands.written hh (hwritable h List.mem_cons_self)
    obtain ⟨r', hr', hentries'⟩ := ih hq
      (fun x hx => (fits_withHistory_iff hh).mpr (hfits x (List.mem_cons_of_mem _ hx)))
      fun x hx => hwritable x (List.mem_cons_of_mem _ hx)
    refine ⟨r', hr', fun n => ?_⟩
    rw [hentries', hentries, entriesOf_cons]
    split
    · rw [List.foldl_append]
    · rfl

/-- The registry is saved, its types in any order. -/
def Saved (root : Route) (s : Registry) (t t' : FileTree) : Prop :=
  ∃ hs, hs.Perm s.items ∧ performAll (saveEffects root hs) t = (t', .ok ())

theorem saved_of_save (h : save root s t = (t', .ok ())) : Saved root s t t' :=
  ⟨s.items, .refl _, h⟩

theorem find?_of_saved (hroot : t.find? root = some (.directory entries)) (hsound : s.Sound)
    (hsaved : Saved root s t t') :
    ∃ hs : List History, hs.Perm s.items ∧ (∀ h ∈ hs, Fits root entries h) ∧
      t'.find? root = some (.directory (hs.foldl Ledger.withHistory entries)) := by
  obtain ⟨hs, hperm, hperformed⟩ := hsaved
  have hnamed : ∀ h ∈ hs, h.typeName ≠ "" := fun h hh => (hsound h (hperm.mem_iff.mp hh)).named
  obtain ⟨hfits, hfind⟩ := find?_of_saveEffects hroot hnamed hperformed
  exact ⟨hs, hperm, hfits, hfind⟩

/-- Saving a registry lays it over the one that stands there. -/
theorem Stands.saved (hroot : t.find? root = some (.directory entries))
    (hstands : Stands root entries r) (hsound : s.Sound) (hsaved : Saved root s t t') :
    ∃ entries' r', t'.find? root = some (.directory entries') ∧ Stands root entries' r' ∧
      ∀ n, r'.entries n = (s.entries n).foldl place (r.entries n) := by
  obtain ⟨hs, hperm, hfits, hfind⟩ := find?_of_saved hroot hsound hsaved
  have hwritable : ∀ h ∈ hs, Writable h := fun h hh => .inl (hsound h (hperm.mem_iff.mp hh))
  obtain ⟨r', hstands', hr'⟩ := hstands.foldl_written hfits hwritable
  exact ⟨_, r', hfind, hstands', fun n => by rw [hr', entriesOf_perm_items hperm]⟩

/-- Registries are saved one after the other. -/
inductive SavedAll (root : Route) (t : FileTree) : List Registry → FileTree → Prop
  | nil : SavedAll root t [] t
  | concat {rs : List Registry} {s : Registry} {u v : FileTree} (before : SavedAll root t rs u)
    (saved : Saved root s u v) : SavedAll root t (rs ++ [s]) v

/-- Registries are saved one after the other, each of which goes on from the one before it, or
from what is loaded of that. The last one is `r`. -/
inductive Continued (root : Route) (t : FileTree) : Registry → FileTree → Prop
  | first {r : Registry} {u : FileTree} (reachable : r.Reachable) (saved : Saved root r t u) :
    Continued root t r u
  | next {r origin : Registry} {u v : FileTree} (before : Continued root t r u)
    (goesOn : origin = r ∨ ∃ u', u.RelistedAt root u' ∧ load root u' = .ok origin)
    (qs : List Registry.Request) (saved : Saved root (origin.served qs) u v) :
    Continued root t (origin.served qs) v

/-- A registry that has the types of all of several ones, and of each version the entry of the
last one that has it. -/
structure Covers (r : Registry) (rs : List Registry) : Prop where
  types : ∀ n, n ∈ r.names ↔ ∃ s ∈ rs, n ∈ s.names
  versions : ∀ n v, r.version? n v = rs.reverse.findSome? fun s => s.held? n v
  bounded : ∀ n, (r.entries n).length ≤ UInt32.size

theorem Stands.numbered (hstands : Stands root entries r) (n : String) :
    Numbered (r.entries n) := by
  by_cases hn : r.entries n = []
  · rw [hn]
    exact numbered_nil
  · obtain ⟨x, hx, -, hentries⟩ := Registry.exists_of_entries_ne_nil hn
    rw [← hentries]
    exact numbered_of_loadInto hstands.loads.loadInto_eq hx

theorem stands_of_savedAll {rs : List Registry} (hroot : t.find? root = some FileTree.empty)
    (hsound : ∀ s ∈ rs, s.Sound) (h : SavedAll root t rs t') :
    ∃ entries r, t'.find? root = some (.directory entries) ∧ Stands root entries r ∧
      ∀ n i, (r.entries n)[i]? = rs.reverse.findSome? fun s => lastAt (s.entries n) i := by
  induction h with
  | nil => exact ⟨[], NameTable.empty, hroot, stands_empty root, fun n i => rfl⟩
  | @concat rs s u v before saved ih =>
    obtain ⟨entries, r, hfind, hstands, hr⟩ := ih fun x hx => hsound x (by simp [hx])
    have hs := hsound s (by simp)
    obtain ⟨entries', r', hfind', hstands', hr'⟩ := hstands.saved hfind hs saved
    refine ⟨entries', r', hfind', hstands', fun n i => ?_⟩
    rw [hr', getElem?_foldl_place (hs.numberedFrom n) (Nat.zero_le _), hr, List.reverse_append]
    simp only [List.reverse_cons, List.reverse_nil, List.nil_append, List.singleton_append,
      List.findSome?_cons]
    cases lastAt (s.entries n) i <;> rfl

/-- The registry that stands there is the one that goes on, as far as there are numbers for its
versions. -/
theorem stands_of_continued (hroot : t.find? root = some FileTree.empty)
    (h : Continued root t r t') : r.Sound ∧ ∃ entries q,
      t'.find? root = some (.directory entries) ∧ Stands root entries q ∧
        ∀ n, (r.entries n).length ≤ UInt32.size → q.entries n = r.entries n := by
  induction h with
  | first reachable saved =>
    have hr := reachable.sound
    obtain ⟨entries, q, hfind, hstands, hq⟩ := (stands_empty root).saved hroot hr saved
    refine ⟨hr, entries, q, hfind, hstands, fun n hn => ?_⟩
    rw [hq]
    exact foldl_place_eq (hr.numbered_of_le hn) (List.nil_prefix)
  | @next r origin u v before goesOn qs saved ih =>
    obtain ⟨hr, entries, q, hfind, hstands, hq⟩ := ih
    -- Whether it was loaded or not, what stands there is a beginning of what is saved next.
    have horigin : origin.Sound ∧ ∀ n, (origin.entries n).length ≤ UInt32.size →
        q.entries n = origin.entries n := by
      rcases goesOn with rfl | ⟨u', hrelisted, hload⟩
      · exact ⟨hr, hq⟩
      · cases hload.symm.trans (hstands.loads.load_eq hfind hrelisted)
        exact ⟨sound_of_load hload, fun n _ => rfl⟩
    have hs := horigin.1.served qs
    obtain ⟨entries', q', hfind', hstands', hq'⟩ := hstands.saved hfind hs saved
    refine ⟨hs, entries', q', hfind', hstands', fun n hn => ?_⟩
    have hgrown := origin.served_keeps_entries qs n
    rw [hq', horigin.2 n (Nat.le_trans hgrown.length_le hn)]
    exact foldl_place_eq (hs.numbered_of_le hn) hgrown

/-- Saving and loading is an overlay. A registry that goes on from the one before it is loaded
as it was saved, as long as there are numbers for its versions. -/
theorem load_of_saves (hroot : t.find? root = some FileTree.empty) :
    (∀ {rs t'}, (∀ s ∈ rs, Registry.Reachable s) → SavedAll root t rs t' →
      ∀ {t''}, t'.RelistedAt root t'' → ∃ r, load root t'' = .ok r ∧ Covers r rs) ∧
    ∀ {r t'}, Continued root t r t' → ∀ {t''}, t'.RelistedAt root t'' →
      (load root t'' = .ok r ↔ ∀ n, (r.entries n).length ≤ UInt32.size) := by
  constructor
  · intro rs t' hreachable hsaved t'' hrelisted
    obtain ⟨entries, r, hfind, hstands, hr⟩ :=
      stands_of_savedAll hroot (fun s hs => (hreachable s hs).sound) hsaved
    have hload := hstands.loads.load_eq hfind hrelisted
    refine ⟨r, hload, fun n => ?_, fun n v => ?_, fun n => (hstands.numbered n).length_le⟩
    · have hnil : r.entries n = [] ↔ ∀ s ∈ rs, s.entries n = [] := by
        have hfirst : r.entries n = [] ↔ (r.entries n)[0]? = none := by simp
        rw [hfirst, hr, List.findSome?_eq_none_iff]
        simp only [List.mem_reverse]
        exact forall₂_congr fun s hs =>
          lastAt_zero_eq_none_iff ((hreachable s hs).sound.numberedFrom n)
      rw [Registry.mem_names_iff (sound_of_load hload), ne_eq, hnil]
      simp only [not_forall, exists_prop]
      exact exists_congr fun s => and_congr_right fun hs =>
        (Registry.mem_names_iff (hreachable s hs).sound).symm
    · rw [Registry.version?, hr]
      simp only [Registry.held?_eq_lastAt]
  · intro r t' hcontinued t'' hrelisted
    obtain ⟨hr, entries, q, hfind, hstands, hq⟩ := stands_of_continued hroot hcontinued
    have hload := hstands.loads.load_eq hfind hrelisted
    rw [hload, Except.ok.injEq]
    constructor
    · rintro rfl n
      exact (hstands.numbered n).length_le
    · intro hbounded
      exact (sound_of_load hload).ext_entries hr fun n => hq n (hbounded n)

/-! ### Two sessions with one type -/

/-- To save a registry of one type, its directory is made and its files are written. -/
theorem save_of_items {directory : String} {files : List (String × ByteArray)}
    (hitems : s.items = [h]) (hdirectory : directoryName h.typeName = directory)
    (hfiles : (h.entries.map fun e => (fileName e.version, e.text.toByteArray)) = files)
    (hperformed : performAll (.makeDirectory (root.join directory) ::
      files.map fun f => .write ((root.join directory).join f.1) f.2) t = (t', .ok ())) :
    save root s t = (t', .ok ()) := by
  rw [save, hitems, saveEffects, List.flatMap_singleton, historyEffects, hdirectory, ← hperformed,
    ← hfiles, List.map_map, Function.comp_def]

def ledgerRoot : Route := ⟨["ledger"]⟩

/-- A tree with an empty ledger. -/
def emptyLedger : FileTree := .directory [("ledger", .empty)]

/-- A tree with a ledger that has these directories. -/
def ledgerWith (directories : List (String × FileTree)) : FileTree :=
  .directory [("ledger", .directory directories)]

theorem find?_ledgerWith (directories : List (String × FileTree)) :
    (ledgerWith directories).find? ledgerRoot = some (.directory directories) := rfl

theorem relistedAt_ledgerWith {directories directories' : List (String × FileTree)}
    (h : (FileTree.directory directories).Relisted (.directory directories')) :
    (ledgerWith directories).RelistedAt ledgerRoot (ledgerWith directories') :=
  ⟨_, _, find?_ledgerWith _, find?_ledgerWith _, h⟩

/-- A tree with a ledger that has these files for the type `A`. -/
def ledgerOf (files : List (String × FileTree)) : FileTree :=
  .directory [("ledger", .directory [("41", .directory files)])]

theorem relistedAt_ledgerOf {files files' : List (String × FileTree)} (h : files.Perm files') :
    (ledgerOf files).RelistedAt ledgerRoot (ledgerOf files') :=
  relistedAt_ledgerWith (.directory (.refl _) rfl (.cons (.of_perm h) .nil))

def firstEntry : Entry := ⟨"A", 0, "B-X", Digest.ofText "B-X", .epoch⟩

def secondEntry : Entry := ⟨"A", 1, "C-Y", Digest.ofText "C-Y", .epoch⟩

/-- What a session has that goes on from one recorded fingerprint with another one. -/
def recordedTwice : Registry := Registry.recordedOnce.served [.record .epoch "A" "C-Y"]

theorem items_recordedOnce : Registry.recordedOnce.items = [⟨"A", [firstEntry]⟩] := rfl

theorem items_recordedTwice : recordedTwice.items = [⟨"A", [firstEntry, secondEntry]⟩] := by
  decide +kernel

theorem length_recordedTwice_lt (n : String) :
    (recordedTwice.entries n).length < UInt32.size := by
  refine Registry.length_entries_lt (by decide) (fun h hmem => ?_) n
  rw [items_recordedTwice, List.mem_singleton] at hmem
  rw [hmem]
  decide

theorem reachable_recorded :
    ∀ s ∈ [Registry.recordedOnce, recordedTwice], Registry.Reachable s := by
  have hafter : Registry.afterSteps [.create, .record 0 .epoch "A" "B-X", .copy 0,
      .record 1 .epoch "A" "C-Y"] = [Registry.recordedOnce, recordedTwice] := by
    decide +kernel
  exact fun s hs => ⟨_, hafter ▸ hs⟩

theorem directoryName_A : directoryName "A" = "41" := by decide +kernel

theorem fileName_firstEntry : fileName firstEntry.version = "v0.json" := by decide +kernel

theorem fileName_secondEntry : fileName secondEntry.version = "v1.json" := by decide +kernel

theorem files_recordedOnce : ([firstEntry].map fun e => (fileName e.version, e.text.toByteArray)) =
    [("v0.json", firstEntry.text.toByteArray)] := by
  rw [List.map_singleton, fileName_firstEntry]

theorem saved_recordedOnce : Saved ledgerRoot Registry.recordedOnce emptyLedger
    (ledgerOf [("v0.json", .file firstEntry.text.toByteArray)]) :=
  saved_of_save (save_of_items items_recordedOnce directoryName_A files_recordedOnce rfl)

/-- Both versions have their files after the save, whether the first one had been saved or not. -/
theorem saved_recordedTwice
    (ht : t = emptyLedger ∨ ∃ content, t = ledgerOf [("v0.json", .file content)]) :
    Saved ledgerRoot recordedTwice t
      (ledgerOf [("v0.json", .file firstEntry.text.toByteArray),
        ("v1.json", .file secondEntry.text.toByteArray)]) := by
  have hfiles : ([firstEntry, secondEntry].map fun e => (fileName e.version, e.text.toByteArray)) =
      [("v0.json", firstEntry.text.toByteArray), ("v1.json", secondEntry.text.toByteArray)] := by
    rw [List.map_cons, List.map_singleton, fileName_firstEntry, fileName_secondEntry]
  refine saved_of_save (save_of_items items_recordedTwice directoryName_A hfiles ?_)
  rcases ht with rfl | ⟨content, rfl⟩
  · rfl
  · rfl

/-- The two registries are saved one after the other, and the later one is loaded from the files
in the opposite order. -/
theorem load_recordedTwice : emptyLedger.find? ledgerRoot = some FileTree.empty ∧
    ∃ t t', SavedAll ledgerRoot emptyLedger [Registry.recordedOnce, recordedTwice] t ∧
      Continued ledgerRoot emptyLedger recordedTwice t ∧ t.RelistedAt ledgerRoot t' ∧ t ≠ t' ∧
      (∃ r, load ledgerRoot t' = .ok r ∧ Covers r [Registry.recordedOnce, recordedTwice]) ∧
      load ledgerRoot t' = .ok recordedTwice := by
  have hroot : emptyLedger.find? ledgerRoot = some FileTree.empty := rfl
  have hsaved : SavedAll ledgerRoot emptyLedger [Registry.recordedOnce, recordedTwice]
      (ledgerOf [("v0.json", .file firstEntry.text.toByteArray),
        ("v1.json", .file secondEntry.text.toByteArray)]) :=
    .concat (.concat .nil saved_recordedOnce) (saved_recordedTwice (.inr ⟨_, rfl⟩))
  have hcontinued : Continued ledgerRoot emptyLedger recordedTwice
      (ledgerOf [("v0.json", .file firstEntry.text.toByteArray),
        ("v1.json", .file secondEntry.text.toByteArray)]) :=
    .next (.first (reachable_recorded _ List.mem_cons_self) saved_recordedOnce) (.inl rfl) _
      (saved_recordedTwice (.inr ⟨_, rfl⟩))
  have hrelisted : FileTree.RelistedAt ledgerRoot
      (ledgerOf [("v0.json", .file firstEntry.text.toByteArray),
        ("v1.json", .file secondEntry.text.toByteArray)])
      (ledgerOf [("v1.json", .file secondEntry.text.toByteArray),
        ("v0.json", .file firstEntry.text.toByteArray)]) :=
    relistedAt_ledgerOf (.swap _ _ _)
  have hbounded : ∀ n, (recordedTwice.entries n).length ≤ UInt32.size := fun n =>
    Nat.le_of_lt (length_recordedTwice_lt n)
  refine ⟨hroot, _, _, hsaved, hcontinued, hrelisted, ?_,
    (load_of_saves hroot).1 reachable_recorded hsaved hrelisted,
    ((load_of_saves hroot).2 hcontinued hrelisted).mpr hbounded⟩
  generalize firstEntry.text.toByteArray = content
  simp [ledgerOf]

end Ledger

end ShapeLedger
