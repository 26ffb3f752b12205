import Mathlib.Data.List.Perm.Basic
import Mathlib.Data.List.ReduceOption
import ShapeLedger.Proofs.Loading
import ShapeLedger.Proofs.Pairing
import ShapeLedger.Proofs.Tables

/-!
Reading a ledger in whatever order its directories are listed. The history of a
type is the entries in its files, numbered from zero without a gap or a
repetition, so the order of the files is forgotten. The registry has the
histories that are found in the directories, so their order matters only where
two directories have different histories of one type.
-/

namespace ShapeLedger

/-- Trees that differ only in the order in which their directories are listed. -/
inductive FileTree.Relisted : FileTree → FileTree → Prop
  | file (content : ByteArray) : Relisted (.file content) (.file content)
  | directory {entries middle entries' : List (String × FileTree)} (order : entries.Perm middle)
    (names : middle.map Prod.fst = entries'.map Prod.fst)
    (below : List.Forall₂ Relisted (middle.map Prod.snd) (entries'.map Prod.snd)) :
    Relisted (.directory entries) (.directory entries')

/-- Trees that agree at the end of a route but for the order in which directories are listed. -/
def FileTree.RelistedAt (r : FileTree.Route) (t t' : FileTree) : Prop :=
  ∃ u u', t.find? r = some u ∧ t'.find? r = some u' ∧ u.Relisted u'

theorem FileTree.Relisted.refl : (t : FileTree) → t.Relisted t
  | .file content => .file content
  | .directory entries =>
    .directory (.refl _) rfl (List.forall₂_same.mpr fun u hu => by
      have hsize : sizeOf u < sizeOf (FileTree.directory entries) := by
        obtain ⟨⟨name, u⟩, he, rfl⟩ := List.mem_map.mp hu
        have hentry := List.sizeOf_lt_of_mem he
        simp only [FileTree.directory.sizeOf_spec, Prod.mk.sizeOf_spec] at hentry ⊢
        omega
      exact FileTree.Relisted.refl u)
termination_by t => sizeOf t
decreasing_by exact hsize

/-- A directory whose entries are listed in another order. -/
theorem FileTree.Relisted.of_perm {entries entries' : List (String × FileTree)}
    (h : entries.Perm entries') : (FileTree.directory entries).Relisted (.directory entries') :=
  .directory h rfl (List.forall₂_same.mpr fun t _ => .refl t)

namespace Ledger

open FileTree (Route)

variable {directory : Route} {typeName : String} {files files' : List (String × FileTree)}
  {es : List Entry}

/-! ### The history of a type -/

/-- What is read from a file of a type's directory: nothing if it is not named for a version. -/
def entryOf? (directory : Route) (typeName : String) (f : String × FileTree) :
    Except Failure (Option Entry) :=
  match version? f.1 with
  | none => .ok none
  | some version => (readEntry (directory.join f.1) typeName version f.2).map some

/-- An entry is read from a file whose place says what the entry says. -/
theorem entryOf?_eq_some_iff {f : String × FileTree} {e : Entry} :
    entryOf? directory typeName f = .ok (some e) ↔
      version? f.1 = some e.version ∧ (directory.join f.1).isAllowed = true ∧
        entryIn? f.2 = some e ∧ e.typeName = typeName := by
  rw [entryOf?]
  cases version? f.1 with
  | none => simp
  | some version =>
    simp only [map_eq_ok_iff, readEntry_eq_ok_iff, Option.some.injEq, exists_eq_right]
    tauto

theorem readEntries_cons_eq_ok_iff {f : String × FileTree} :
    readEntries directory typeName (f :: files) = .ok es ↔
      ∃ o rest, entryOf? directory typeName f = .ok o ∧
        readEntries directory typeName files = .ok rest ∧ o.toList ++ rest = es := by
  obtain ⟨name, file⟩ := f
  rw [readEntries, entryOf?]
  cases version? name with
  | none => simp
  | some version =>
    cases hentry : readEntry (directory.join name) typeName version file with
    | error e => simp [hentry, Except.map]
    | ok e => cases readEntries directory typeName files <;> simp [hentry, Except.map]

theorem readEntries_eq_ok_iff : readEntries directory typeName files = .ok es ↔
    ∃ os, List.Forall₂ (fun f o => entryOf? directory typeName f = .ok o) files os ∧
      os.reduceOption = es := by
  induction files generalizing es with
  | nil => simp [readEntries, eq_comm]
  | cons f files ih =>
    rw [readEntries_cons_eq_ok_iff]
    simp only [ih]
    constructor
    · rintro ⟨o, _, ho, ⟨os, hos, rfl⟩, rfl⟩
      exact ⟨o :: os, .cons ho hos, by cases o <;> rfl⟩
    · rintro ⟨_, _ | ⟨ho, hos⟩, rfl⟩
      rename_i o os
      exact ⟨o, _, ho, ⟨os, hos, rfl⟩, by cases o <;> rfl⟩

theorem mem_of_readEntries (h : readEntries directory typeName files = .ok es) {e : Entry} :
    e ∈ es ↔ ∃ f ∈ files, entryOf? directory typeName f = .ok (some e) := by
  induction files generalizing es with
  | nil =>
    cases h
    simp
  | cons f files ih =>
    obtain ⟨o, rest, ho, hrest, rfl⟩ := readEntries_cons_eq_ok_iff.mp h
    simp [ho, ih hrest]

/-- What is read from a file that is named for a version is an entry of that version. -/
theorem exists_of_entryOf? {f : String × FileTree} {version : UInt32} {o : Option Entry}
    (h : entryOf? directory typeName f = .ok o) (hversion : version? f.1 = some version) :
    ∃ e, o = some e ∧ e.version = version := by
  simp only [entryOf?, hversion, map_eq_ok_iff] at h
  obtain ⟨e, he, rfl⟩ := h
  exact ⟨e, rfl, (typeName_of_readEntry he).2⟩

/-- The entries are numbered from zero by their places. -/
def Numbered (es : List Entry) : Prop :=
  ∀ (i : Nat) (e : Entry), es[i]? = some e → e.version.toNat = i

theorem Numbered.pairwise (h : Numbered es) :
    es.Pairwise fun a b => a.version.toNat < b.version.toNat := by
  rw [List.pairwise_iff_getElem]
  intro i j hi hj hij
  rw [h i _ (List.getElem?_eq_getElem hi), h j _ (List.getElem?_eq_getElem hj)]
  exact hij

/-- Entries that are among others are the first of them. -/
theorem Numbered.prefix_of_subset {all : List Entry} (h : Numbered es) (hall : Numbered all)
    (hsub : ∀ e ∈ es, e ∈ all) : es <+: all := by
  refine List.prefix_iff_getElem?.mpr fun i hi => ?_
  have hversion := h i _ (List.getElem?_eq_getElem hi)
  obtain ⟨j, hj⟩ := List.getElem?_of_mem (hsub _ (List.getElem_mem hi))
  rw [← hj, ← hall j _ hj, hversion]

/-- The versions of the longer list go on from those of the shorter one. -/
theorem Numbered.map_version_of_length_le {all : List Entry} (h : Numbered es) (hall : Numbered all)
    (hlength : es.length ≤ all.length) : es.map Entry.version <+: all.map Entry.version := by
  refine List.prefix_iff_getElem?.mpr fun i hi => ?_
  rw [List.length_map] at hi
  have hi' : i < all.length := Nat.lt_of_lt_of_le hi hlength
  rw [List.getElem?_map, List.getElem?_eq_getElem hi', List.getElem_map, Option.map_some,
    Option.some.injEq, ← UInt32.toNat_inj, hall i _ (List.getElem?_eq_getElem hi'),
    h i _ (List.getElem?_eq_getElem hi)]

theorem numbered_nil : Numbered [] := fun i e he => by simp at he

/-- There are no more entries than numbers for them. -/
theorem Numbered.length_le (h : Numbered es) : es.length ≤ UInt32.size := by
  by_contra hlt
  have hi : UInt32.size < es.length := by omega
  have hversion := h _ _ (List.getElem?_eq_getElem hi)
  have hbound := (es[UInt32.size]).version.toNat_lt
  rw [hversion] at hbound
  exact Nat.lt_irrefl _ hbound

theorem pairwise_mergeSort_version (read : List Entry) :
    (read.mergeSort fun a b => decide (a.version ≤ b.version)).Pairwise
      fun a b => a.version.toNat ≤ b.version.toNat := by
  refine (List.pairwise_mergeSort ?_ ?_ read).imp fun hab => ?_
  · simp only [decide_eq_true_eq]
    exact fun a b c => UInt32.le_trans
  · simp only [Bool.or_eq_true, decide_eq_true_eq]
    exact fun a b => UInt32.le_total _ _
  · exact UInt32.le_iff_toNat_le.mp (of_decide_eq_true hab)

theorem mergeSort_eq_of_perm {read : List Entry} (hperm : read.Perm es) (h : Numbered es) :
    (read.mergeSort fun a b => decide (a.version ≤ b.version)) = es := by
  have hread := List.mergeSort_perm read fun a b => decide (a.version ≤ b.version)
  have hes : es.Pairwise fun a b => a.version.toNat ≤ b.version.toNat :=
    h.pairwise.imp Nat.le_of_lt
  refine (hread.trans hperm).eq_of_pairwise (fun a b ha hb hab hba => ?_)
    (pairwise_mergeSort_version read) hes
  obtain ⟨i, hi⟩ := List.getElem?_of_mem ((hread.trans hperm).mem_iff.mp ha)
  obtain ⟨j, hj⟩ := List.getElem?_of_mem hb
  have hij : i = j := by
    rw [← h i a hi, ← h j b hj]
    exact Nat.le_antisymm hab hba
  subst hij
  exact Option.some.inj (hi.symm.trans hj)

theorem readHistory_eq_ok_iff : readHistory directory typeName files = .ok es ↔
    ∃ read, readEntries directory typeName files = .ok read ∧ read.Perm es ∧ Numbered es := by
  have hnumbered : ∀ es, firstMissing? 0 es = none ↔ Numbered es := by
    intro es
    simp [firstMissing?_eq_none_iff, Numbered]
  rw [readHistory]
  cases readEntries directory typeName files with
  | error e => simp
  | ok read =>
    simp only [Except.ok.injEq, exists_eq_left']
    constructor
    · intro h
      split at h
      · cases h
      · cases h
        exact ⟨(List.mergeSort_perm _ _).symm, (hnumbered _).mp ‹_›⟩
    · rintro ⟨hperm, h⟩
      rw [mergeSort_eq_of_perm hperm h, (hnumbered es).mpr h]

/-- The entries of a history are those that are read from its files. -/
theorem mem_of_readHistory (h : readHistory directory typeName files = .ok es) {e : Entry} :
    e ∈ es ↔ ∃ f ∈ files, entryOf? directory typeName f = .ok (some e) := by
  obtain ⟨read, hread, hperm, -⟩ := readHistory_eq_ok_iff.mp h
  rw [← hperm.mem_iff, mem_of_readEntries hread]

theorem readHistory_nil : readHistory directory typeName [] = .ok [] :=
  readHistory_eq_ok_iff.mpr ⟨[], rfl, .nil, numbered_nil⟩

theorem readEntries_perm {read : List Entry} (h : files.Perm files')
    (hread : readEntries directory typeName files = .ok read) :
    ∃ read', readEntries directory typeName files' = .ok read' ∧ read.Perm read' := by
  obtain ⟨os, hos, rfl⟩ := readEntries_eq_ok_iff.mp hread
  obtain ⟨os', hos', hperm⟩ := List.perm_comp_forall₂ h.symm hos
  exact ⟨_, readEntries_eq_ok_iff.mpr ⟨os', hos', rfl⟩, (hperm.filterMap id).symm⟩

/-- The order in which the files are listed does not matter. -/
theorem readHistory_perm (h : files.Perm files') :
    readHistory directory typeName files = .ok es ↔
      readHistory directory typeName files' = .ok es := by
  have himp {files files' : List (String × FileTree)} (h : files.Perm files')
      (hread : readHistory directory typeName files = .ok es) :
      readHistory directory typeName files' = .ok es := by
    obtain ⟨read, hread, hperm, hnumbered⟩ := readHistory_eq_ok_iff.mp hread
    obtain ⟨read', hread', hperm'⟩ := readEntries_perm h hread
    exact readHistory_eq_ok_iff.mpr ⟨read', hread', hperm'.symm.trans hperm, hnumbered⟩
  exact ⟨himp h, himp h.symm⟩

/-- The versions of the files are those of the entries in them. -/
theorem map_version_of_readEntries {read : List Entry}
    (h : readEntries directory typeName files = .ok read) :
    read.map Entry.version = files.filterMap fun f => version? f.1 := by
  induction files generalizing read with
  | nil =>
    cases h
    rfl
  | cons f files ih =>
    obtain ⟨o, rest, ho, hrest, rfl⟩ := readEntries_cons_eq_ok_iff.mp h
    cases hversion : version? f.1 with
    | none =>
      simp only [entryOf?, hversion] at ho
      cases ho
      simp [hversion, ih hrest]
    | some version =>
      obtain ⟨e, rfl, he⟩ := exists_of_entryOf? ho hversion
      simp [hversion, ih hrest, he]

theorem nodup_versions_of_readHistory (h : readHistory directory typeName files = .ok es) :
    (files.filterMap fun f => version? f.1).Nodup := by
  obtain ⟨read, hread, hperm, hnumbered⟩ := readHistory_eq_ok_iff.mp h
  rw [← map_version_of_readEntries hread, (hperm.map _).nodup_iff]
  refine List.pairwise_map.mpr (hnumbered.pairwise.imp fun hlt heq => ?_)
  rw [heq] at hlt
  exact Nat.lt_irrefl _ hlt

/-! ### The directories of a root -/

variable {root : Route} {entries entries' : List (String × FileTree)} {r r' : Registry}

/-- What is read from an entry of the root: nothing if it is no directory of a type, or one
without versions. -/
def historyOf? (root : Route) (u : String × FileTree) : Except Failure (Option History) :=
  match typeDirectory? root u with
  | none => .ok none
  | some (typeName, files) =>
    (readHistory (root.join u.1) typeName files).map fun es =>
      if es = [] then none else some ⟨typeName, es⟩

theorem historyOf?_directory (root : Route) (name : String) (files : List (String × FileTree)) :
    historyOf? root (name, .directory files) =
      match if (root.join name).isAllowed then typeName? name else none with
      | none => .ok none
      | some typeName =>
        (readHistory (root.join name) typeName files).map fun es =>
          if es = [] then none else some ⟨typeName, es⟩ := by
  rw [historyOf?, typeDirectory?.eq_def]
  simp only
  split
  · split <;> simp_all
  · simp_all

theorem historyOf?_eq_some_iff {u : String × FileTree} {x : History} :
    historyOf? root u = .ok (some x) ↔ ∃ files,
      typeDirectory? root u = some (x.typeName, files) ∧
        readHistory (root.join u.1) x.typeName files = .ok x.entries ∧ x.entries ≠ [] := by
  rw [historyOf?]
  split
  · rename_i hnone
    simp [hnone]
  · rename_i typeName files htype
    simp only [htype, Option.some.injEq, Prod.mk.injEq, map_eq_ok_iff]
    constructor
    · rintro ⟨es, hread, hx⟩
      split at hx
      · cases hx
      · cases hx
        exact ⟨files, ⟨rfl, rfl⟩, hread, ‹_›⟩
    · rintro ⟨_, ⟨rfl, rfl⟩, hread, hne⟩
      exact ⟨x.entries, hread, if_neg hne⟩

theorem typeDirectory?_eq_some_iff {u : String × FileTree} :
    typeDirectory? root u = some (typeName, files) ↔
      u.2 = .directory files ∧ (root.join u.1).isAllowed = true ∧ typeName? u.1 = some typeName := by
  obtain ⟨name, t⟩ := u
  rw [typeDirectory?.eq_def]
  cases t with
  | file content => simp
  | directory files' =>
    by_cases hallowed : (root.join name).isAllowed = true
    · simp [hallowed, and_comm]
    · simp [hallowed]

theorem exists_of_historyOf? {u : String × FileTree} {x : History}
    (h : historyOf? root u = .ok (some x)) : typeName? u.1 = some x.typeName ∧
      ∃ files, readHistory (root.join u.1) x.typeName files = .ok x.entries := by
  obtain ⟨files, htype, hread, -⟩ := historyOf?_eq_some_iff.mp h
  exact ⟨(typeDirectory?_eq_some_iff.mp htype).2.2, files, hread⟩

/-- The histories that are found in entries of the root, in their order. -/
inductive Found (root : Route) : List (String × FileTree) → List History → Prop
  | nil : Found root [] []
  | cons {u : String × FileTree} {entries : List (String × FileTree)} {o : Option History}
    {hs : List History} (first : historyOf? root u = .ok o) (rest : Found root entries hs) :
    Found root (u :: entries) (o.toList ++ hs)

theorem Found.mem_iff {hs : List History} (h : Found root entries hs) (x : History) :
    x ∈ hs ↔ ∃ u ∈ entries, historyOf? root u = .ok (some x) := by
  induction h with
  | nil => simp
  | cons first rest ih => simp [ih, first]

theorem Found.readable {hs : List History} (h : Found root entries hs) :
    ∀ u ∈ entries, ∃ o, historyOf? root u = .ok o := by
  induction h with
  | nil => exact nofun
  | @cons u entries o hs first rest ih =>
    intro v hv
    rcases List.mem_cons.mp hv with rfl | hv
    · exact ⟨o, first⟩
    · exact ih v hv

theorem exists_found (h : ∀ u ∈ entries, ∃ o, historyOf? root u = .ok o) :
    ∃ hs, Found root entries hs := by
  induction entries with
  | nil => exact ⟨[], .nil⟩
  | cons u entries ih =>
    obtain ⟨o, ho⟩ := h u List.mem_cons_self
    obtain ⟨hs, hhs⟩ := ih fun v hv => h v (List.mem_cons_of_mem _ hv)
    exact ⟨_, .cons ho hhs⟩

theorem found_append_iff {as bs : List (String × FileTree)} {hs : List History} :
    Found root (as ++ bs) hs ↔ ∃ xs ys, Found root as xs ∧ Found root bs ys ∧ xs ++ ys = hs := by
  induction as generalizing hs with
  | nil =>
    constructor
    · exact fun h => ⟨[], hs, .nil, h, rfl⟩
    · rintro ⟨_, ys, ⟨⟩, h, rfl⟩
      exact h
  | cons u as ih =>
    constructor
    · rintro (_ | ⟨first, rest⟩)
      obtain ⟨xs, ys, hxs, hys, rfl⟩ := ih.mp rest
      exact ⟨_, ys, .cons first hxs, hys, List.append_assoc _ _ _⟩
    · rintro ⟨_, ys, _ | ⟨first, rest⟩, hys, rfl⟩
      rw [List.append_assoc]
      exact .cons first (ih.mpr ⟨_, ys, rest, hys, rfl⟩)

theorem loadInto_eq_ok_iff : loadInto root r entries = .ok r' ↔
    ∃ hs, Found root entries hs ∧ hs.foldl NameTable.insert r = r' := by
  induction entries generalizing r with
  | nil =>
    constructor
    · intro h
      exact ⟨[], .nil, Except.ok.inj h⟩
    · rintro ⟨_, ⟨⟩, rfl⟩
      rfl
  | cons u entries ih =>
    have hcons : loadInto root r (u :: entries) = .ok r' ↔
        ∃ o, historyOf? root u = .ok o ∧
          loadInto root (o.toList.foldl NameTable.insert r) entries = .ok r' := by
      rw [loadInto, historyOf?]
      cases typeDirectory? root u with
      | none => simp
      | some found =>
        obtain ⟨typeName, files⟩ := found
        simp only
        cases hread : readHistory (root.join u.1) typeName files with
        | error e => simp [Except.map]
        | ok es => cases es <;> simp [Except.map]
    rw [hcons]
    simp only [ih]
    constructor
    · rintro ⟨o, first, hs, rest, rfl⟩
      exact ⟨_, .cons first rest, List.foldl_append⟩
    · rintro ⟨_, _ | ⟨first, rest⟩, rfl⟩
      exact ⟨_, first, _, rest, List.foldl_append.symm⟩

theorem find?_reverse_of_loaded {hs : List History} {h : History}
    (hr : hs.foldl NameTable.insert NameTable.empty = r) (hmem : h ∈ r.items) :
    hs.reverse.find? (fun x => x.typeName = h.typeName) = some h := by
  have hfind := NameTable.find?_of_mem hmem
  rw [← hr] at hfind
  rwa [← NameTable.find?_ofList]

theorem mem_of_loaded {hs : List History} {h : History}
    (hr : hs.foldl NameTable.insert NameTable.empty = r) (hmem : h ∈ r.items) : h ∈ hs :=
  List.mem_reverse.mp (List.mem_of_find?_eq_some (find?_reverse_of_loaded hr hmem))

theorem numbered_of_loadInto {h : History} (hload : loadInto root NameTable.empty entries = .ok r)
    (hmem : h ∈ r.items) : Numbered h.entries := by
  obtain ⟨hs, hfound, hr⟩ := loadInto_eq_ok_iff.mp hload
  obtain ⟨u, -, hu⟩ := (hfound.mem_iff h).mp (mem_of_loaded hr hmem)
  obtain ⟨-, files, hread⟩ := exists_of_historyOf? hu
  obtain ⟨-, -, -, hnumbered⟩ := readHistory_eq_ok_iff.mp hread
  exact hnumbered

/-- The directories of a root hold the histories of a registry and no others. -/
structure Loads (root : Route) (entries : List (String × FileTree)) (r : Registry) : Prop where
  readable : ∀ u ∈ entries, ∃ o, historyOf? root u = .ok o
  items : ∀ h, h ∈ r.items ↔ ∃ u ∈ entries, historyOf? root u = .ok (some h)

/-- Then they give the registry in whatever order they are listed. -/
theorem Loads.loadInto_eq (h : Loads root entries r) :
    loadInto root NameTable.empty entries = .ok r := by
  obtain ⟨hs, hfound⟩ := exists_found h.readable
  exact loadInto_eq_ok_iff.mpr
    ⟨hs, hfound, NameTable.ofList_eq fun x => (hfound.mem_iff x).trans (h.items x).symm⟩

/-! ### Listing again -/

theorem forall₂_relisted {middle : List (String × FileTree)}
    (names : middle.map Prod.fst = entries.map Prod.fst)
    (below : List.Forall₂ FileTree.Relisted (middle.map Prod.snd) (entries.map Prod.snd)) :
    List.Forall₂ (fun u v => u.1 = v.1 ∧ u.2.Relisted v.2) middle entries := by
  induction middle generalizing entries with
  | nil =>
    cases entries with
    | nil => exact .nil
    | cons v entries => cases names
  | cons u middle ih =>
    cases entries with
    | nil => cases names
    | cons v entries =>
      rw [List.map_cons, List.map_cons] at names below
      obtain ⟨hname, hnames⟩ := List.cons.inj names
      obtain ⟨htree, htrees⟩ := List.forall₂_cons.mp below
      exact .cons ⟨hname, htree⟩ (ih hnames htrees)

theorem entryOf?_of_relisted {f f' : String × FileTree} (hname : f.1 = f'.1)
    (htree : f.2.Relisted f'.2) :
    entryOf? directory typeName f = entryOf? directory typeName f' := by
  obtain ⟨name, file⟩ := f
  obtain ⟨name', file'⟩ := f'
  cases hname
  cases htree with
  | file content => rfl
  | directory => rfl

theorem readHistory_of_relisted (h : FileTree.Relisted (.directory files) (.directory files')) :
    readHistory directory typeName files = .ok es ↔
      readHistory directory typeName files' = .ok es := by
  cases h with
  | @directory _ middle _ order names below =>
    have hrelated := forall₂_relisted names below
    rw [readHistory_perm order]
    clear names below order
    have hsame : ∀ os, List.Forall₂ (fun f o => entryOf? directory typeName f = .ok o) middle os ↔
        List.Forall₂ (fun f o => entryOf? directory typeName f = .ok o) files' os := by
      induction hrelated with
      | nil => exact fun os => .rfl
      | cons hff' _ ih =>
        intro os
        simp only [List.forall₂_cons_left_iff, entryOf?_of_relisted hff'.1 hff'.2, ih]
    simp only [readHistory_eq_ok_iff, readEntries_eq_ok_iff, hsame]

theorem historyOf?_of_relisted {u v : String × FileTree} (hname : u.1 = v.1)
    (htree : u.2.Relisted v.2) (o : Option History) :
    historyOf? root u = .ok o ↔ historyOf? root v = .ok o := by
  obtain ⟨name, t⟩ := u
  obtain ⟨name', t'⟩ := v
  cases hname
  cases htree with
  | file content => rfl
  | directory order names below =>
    rw [historyOf?_directory, historyOf?_directory]
    split
    · rfl
    · simp only [map_eq_ok_iff, readHistory_of_relisted (.directory order names below)]

/-- Listing again neither adds an entry of the root nor takes one away. -/
theorem exists_of_relisted (root : Route)
    (hrelisted : FileTree.Relisted (.directory entries) (.directory entries')) :
    (∀ u ∈ entries, ∃ v ∈ entries', ∀ o,
        historyOf? root u = .ok o ↔ historyOf? root v = .ok o) ∧
      ∀ v ∈ entries', ∃ u ∈ entries, ∀ o,
        historyOf? root u = .ok o ↔ historyOf? root v = .ok o := by
  cases hrelisted with
  | @directory _ middle _ order names below =>
    have hrelated := forall₂_relisted names below
    constructor
    · intro u hu
      obtain ⟨v, hv, hname, htree⟩ := exists_mem_of_forall₂_left hrelated (order.mem_iff.mp hu)
      exact ⟨v, hv, historyOf?_of_relisted hname htree⟩
    · intro v hv
      obtain ⟨u, hu, hname, htree⟩ := exists_mem_of_forall₂ hrelated hv
      exact ⟨u, order.mem_iff.mpr hu, historyOf?_of_relisted hname htree⟩

theorem Loads.relisted (h : Loads root entries r)
    (hrelisted : FileTree.Relisted (.directory entries) (.directory entries')) :
    Loads root entries' r := by
  obtain ⟨hforth, hback⟩ := exists_of_relisted root hrelisted
  constructor
  · intro v hv
    obtain ⟨u, hu, hsame⟩ := hback v hv
    obtain ⟨o, ho⟩ := h.readable u hu
    exact ⟨o, (hsame o).mp ho⟩
  · intro x
    rw [h.items]
    constructor
    · rintro ⟨u, hu, hx⟩
      obtain ⟨v, hv, hsame⟩ := hforth u hu
      exact ⟨v, hv, (hsame _).mp hx⟩
    · rintro ⟨v, hv, hx⟩
      obtain ⟨u, hu, hsame⟩ := hback v hv
      exact ⟨u, hu, (hsame _).mpr hx⟩

/-- A root that holds a registry is loaded as it, in whatever order it is listed. -/
theorem Loads.load_eq {t t' : FileTree} (h : Loads root entries r)
    (hroot : t.find? root = some (.directory entries)) (hrelisted : t.RelistedAt root t') :
    load root t' = .ok r := by
  obtain ⟨u, u', hu, hu', hsame⟩ := hrelisted
  rw [hroot, Option.some.injEq] at hu
  subst hu
  have hentries := hsame
  cases hsame with
  | @directory _ _ entries' order names below =>
    rw [load, hu']
    exact (h.relisted hentries).loadInto_eq

end Ledger

end ShapeLedger
