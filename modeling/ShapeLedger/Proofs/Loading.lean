import ShapeLedger.Proofs.LedgerNames
import ShapeLedger.Proofs.Recording

/-!
What is loaded is sound. A file is taken up only if its entry names the type of
its directory, a directory only if its entries are numbered from zero without a
gap, and no type has the empty name.
-/

namespace ShapeLedger

open FileTree (Route)

namespace Ledger

theorem ne_empty_of_typeDirectory? {root : Route} {entry : String × FileTree} {typeName : String}
    {files : List (String × FileTree)}
    (h : typeDirectory? root entry = some (typeName, files)) : typeName ≠ "" := by
  rw [typeDirectory?.eq_def] at h
  split at h
  · cases h
  · split at h
    · obtain ⟨name, hname, heq⟩ := Option.map_eq_some_iff.mp h
      cases heq
      exact (typeName?_eq_some_iff.mp hname).1
    · cases h

/-- The entry whose text a file has. -/
def entryIn? (file : FileTree) : Option Entry := (textOf? file).bind Entry.ofText?

/-- The place of a file must say what the entry in it says. -/
theorem readEntry_eq_ok_iff {route : Route} {typeName : String} {version : UInt32}
    {file : FileTree} {e : Entry} :
    readEntry route typeName version file = .ok e ↔
      route.isAllowed = true ∧ entryIn? file = some e ∧ e.typeName = typeName ∧
        e.version = version := by
  rw [readEntry, entryIn?]
  cases hallowed : route.isAllowed with
  | false => simp
  | true =>
    simp only [if_true, true_and]
    cases textOf? file with
    | none => simp
    | some text =>
      cases htext : Entry.ofText? text with
      | none => simp [htext]
      | some e' =>
        simp only [Option.bind_some, htext, Option.some.injEq]
        split
        · rename_i hne
          simp only [reduceCtorEq, false_iff]
          rintro ⟨rfl, hname, -⟩
          exact hne hname
        · split
          · rename_i hne
            simp only [reduceCtorEq, false_iff]
            rintro ⟨rfl, -, hversion⟩
            exact hne hversion
          · rename_i hname hversion
            rw [Except.ok.injEq]
            constructor
            · rintro rfl
              exact ⟨rfl, Decidable.not_not.mp hname, Decidable.not_not.mp hversion⟩
            · exact fun h => h.1

theorem typeName_of_readEntry {route : Route} {typeName : String} {version : UInt32}
    {file : FileTree} {e : Entry} (h : readEntry route typeName version file = .ok e) :
    e.typeName = typeName ∧ e.version = version :=
  (readEntry_eq_ok_iff.mp h).2.2

theorem typeName_of_readEntries {directory : Route} {typeName : String}
    {files : List (String × FileTree)} {es : List Entry}
    (h : readEntries directory typeName files = .ok es) : ∀ e ∈ es, e.typeName = typeName := by
  induction files generalizing es with
  | nil =>
    cases h
    simp
  | cons f files ih =>
    obtain ⟨name, file⟩ := f
    rw [readEntries] at h
    split at h
    · exact ih h
    · split at h
      · cases h
      · rename_i entry hentry
        cases hrest : readEntries directory typeName files with
        | error e => simp [hrest, Except.map] at h
        | ok rest =>
          simp only [hrest, Except.map, Except.ok.injEq] at h
          subst h
          intro x hx
          rcases List.mem_cons.mp hx with rfl | hx
          · exact (typeName_of_readEntry hentry).1
          · exact ih hrest x hx

/-- No number is missing if each entry holds the number of its place. -/
theorem firstMissing?_eq_none_iff {expected : Nat} {es : List Entry} :
    firstMissing? expected es = none ↔
      ∀ i e, es[i]? = some e → e.version.toNat = expected + i := by
  induction es generalizing expected with
  | nil => simp [firstMissing?]
  | cons e es ih =>
    rw [firstMissing?]
    split
    · rename_i hversion
      rw [ih]
      constructor
      · intro h i x hx
        cases i with
        | zero =>
          cases hx
          exact hversion
        | succ i =>
          rw [h i x hx]
          omega
      · intro h i x hx
        rw [h (i + 1) x hx]
        omega
    · rename_i hversion
      exact ⟨nofun, fun h => absurd (h 0 e rfl) hversion⟩

theorem sound_of_readHistory {directory : Route} {typeName : String}
    {files : List (String × FileTree)} {e : Entry} {es : List Entry} (hname : typeName ≠ "")
    (h : readHistory directory typeName files = .ok (e :: es)) :
    History.Sound ⟨typeName, e :: es⟩ := by
  rw [readHistory] at h
  split at h
  · cases h
  · rename_i entries hentries
    simp only at h
    split at h
    · cases h
    · rename_i hmissing
      rw [Except.ok.injEq] at h
      refine ⟨hname, List.cons_ne_nil _ _, fun x hx => ?_, fun i x hx => ?_⟩
      · -- Sorting takes no entry away and adds none.
        refine typeName_of_readEntries hentries x ?_
        rw [← h] at hx
        exact (List.mergeSort_perm entries _).mem_iff.mp hx
      · rw [← h] at hx
        have hversion := firstMissing?_eq_none_iff.mp hmissing i x hx
        rw [Nat.zero_add] at hversion
        rw [← hversion, UInt32.ofNat_toNat]

theorem sound_of_loadInto {root : Route} {r r' : Registry} {entries : List (String × FileTree)}
    (hr : r.Sound) (h : loadInto root r entries = .ok r') : r'.Sound := by
  induction entries generalizing r with
  | nil =>
    cases h
    exact hr
  | cons entry entries ih =>
    rw [loadInto] at h
    split at h
    · exact ih hr h
    · rename_i typeName files htype
      split at h
      · cases h
      · exact ih hr h
      · rename_i e es hhistory
        refine ih (fun x hx => ?_) h
        rcases NameTable.mem_fileIn hx with rfl | hx
        · exact sound_of_readHistory (ne_empty_of_typeDirectory? htype) hhistory
        · exact hr x hx

/-- Whatever stands below the root, a registry that is loaded from it is sound. -/
theorem sound_of_load {root : Route} {t : FileTree} {r : Registry} (h : load root t = .ok r) :
    r.Sound := by
  rw [load] at h
  split at h
  · cases h
    exact Registry.sound_empty
  · cases h
  · exact sound_of_loadInto Registry.sound_empty h

end Ledger

end ShapeLedger
