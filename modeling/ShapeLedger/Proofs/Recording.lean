import ShapeLedger.Registry

/-!
Recording from outside. A request to record either changes nothing and returns
the latest version, or adds one entry to the history of its type and returns
the version of that. In a sound registry the entries of each type are numbered
by their places, and recording keeps it sound.
-/

namespace ShapeLedger

/-- The beginning of 1970. -/
def Timestamp.epoch : Timestamp := ⟨0, 0, by decide, by decide⟩

namespace Registry

variable {r r' : Registry} {now : Timestamp} {name hash : String} {v : UInt32}

/-- The version that the next entry of the type gets. -/
def nextVersion (r : Registry) (name : String) : UInt32 :=
  match r.latest? name with
  | none => 0
  | some e => e.version + 1

/-- The entry with which a fingerprint becomes the next version. -/
def nextEntry (r : Registry) (now : Timestamp) (name hash : String) : Entry :=
  ⟨name, r.nextVersion name, hash, Digest.ofText hash, now⟩

/-- What recording makes of a registry, and the version that it returns. -/
inductive Recorded (r : Registry) (now : Timestamp) (name hash : String) :
    Registry → UInt32 → Prop
  | kept {e : Entry} (latest : r.latest? name = some e) (digest : e.digest = Digest.ofText hash)
    (same : e.hash = hash) : Recorded r now name hash r e.version
  | appended (new : ∀ e, r.latest? name = some e → e.digest = Digest.ofText hash → e.hash ≠ hash) :
    Recorded r now name hash (r.append (r.nextEntry now name hash)) (r.nextVersion name)

theorem record_of_blank (r : Registry) (now : Timestamp) (hash : String)
    (h : Text.blank name = true) : r.record now name hash = .error .emptyTypeName := by
  rw [record, if_pos h]

theorem record_of_same {e : Entry} (hblank : Text.blank name = false)
    (latest : r.latest? name = some e) (digest : e.digest = Digest.ofText hash)
    (same : e.hash = hash) : r.record now name hash = .ok (r, e.version) := by
  simp [record, hblank, latest, digest, same]

theorem record_of_new (hblank : Text.blank name = false)
    (new : ∀ e, r.latest? name = some e → e.digest = Digest.ofText hash → e.hash ≠ hash) :
    r.record now name hash = .ok (r.append (r.nextEntry now name hash), r.nextVersion name) := by
  cases hlatest : r.latest? name with
  | none => simp [record, nextEntry, nextVersion, hblank, hlatest]
  | some e =>
    have hdiffers : ¬ (e.digest = Digest.ofText hash ∧ e.hash = hash) :=
      fun h => new e hlatest h.1 h.2
    simp [record, nextEntry, nextVersion, hblank, hlatest, hdiffers]

theorem record_eq_ok_iff : r.record now name hash = .ok (r', v) ↔
    Text.blank name = false ∧ Recorded r now name hash r' v := by
  cases hblank : Text.blank name with
  | true => simp [record_of_blank r now hash hblank]
  | false =>
    rw [and_iff_right rfl]
    constructor
    · intro h
      by_cases hsame : ∃ e, r.latest? name = some e ∧ e.digest = Digest.ofText hash ∧ e.hash = hash
      · obtain ⟨e, latest, digest, same⟩ := hsame
        cases h.symm.trans (record_of_same hblank latest digest same)
        exact .kept latest digest same
      · have new : ∀ e, r.latest? name = some e → e.digest = Digest.ofText hash → e.hash ≠ hash :=
          fun e latest digest same => hsame ⟨e, latest, digest, same⟩
        cases h.symm.trans (record_of_new hblank new)
        exact .appended new
    · intro h
      cases h with
      | kept latest digest same => exact record_of_same hblank latest digest same
      | appended new => exact record_of_new hblank new

theorem exists_record_of_not_blank (r : Registry) (now : Timestamp) (hash : String)
    (h : Text.blank name = false) : ∃ r' v, r.record now name hash = .ok (r', v) := by
  rw [record, h, if_neg Bool.false_ne_true]
  cases r.latest? name with
  | none => exact ⟨_, _, rfl⟩
  | some e =>
    simp only
    split <;> exact ⟨_, _, rfl⟩

/-! ### Histories -/

@[simp] theorem entries_empty (name : String) : entries NameTable.empty name = [] := rfl

theorem entries_append_self (r : Registry) (e : Entry) :
    (r.append e).entries e.typeName = r.entries e.typeName ++ [e] := by
  rw [entries, append, NameTable.find?_insert, if_pos rfl]

theorem entries_append_nextEntry (r : Registry) (now : Timestamp) (name hash : String) :
    (r.append (r.nextEntry now name hash)).entries name =
      r.entries name ++ [r.nextEntry now name hash] :=
  entries_append_self r (r.nextEntry now name hash)

theorem entries_append_of_ne (r : Registry) {e : Entry} (h : e.typeName ≠ name) :
    (r.append e).entries name = r.entries name := by
  rw [entries, append, NameTable.find?_insert, if_neg h, entries]

theorem append_ne_self (r : Registry) (e : Entry) : r.append e ≠ r := by
  intro h
  have hentries := entries_append_self r e
  rw [h] at hentries
  simp at hentries

end Registry

/-- A history of a named type, with entries for that type only, numbered by their places. -/
structure History.Sound (h : History) : Prop where
  named : h.typeName ≠ ""
  nonempty : h.entries ≠ []
  owned : ∀ e ∈ h.entries, e.typeName = h.typeName
  numbered : ∀ i e, h.entries[i]? = some e → e.version = UInt32.ofNat i

namespace Registry

variable {r r' : Registry} {now : Timestamp} {name hash : String} {v : UInt32}

def Sound (r : Registry) : Prop := ∀ h ∈ r.items, h.Sound

theorem sound_empty : Sound NameTable.empty := fun _ h => nomatch h

theorem Sound.entries_eq_nil_iff (hr : r.Sound) : r.entries name = [] ↔ r.find? name = none := by
  rw [entries]
  split
  · rename_i h hfind
    simp [hfind, (hr h (NameTable.mem_of_find? hfind)).nonempty]
  · simp [*]

theorem Sound.numbered (hr : r.Sound) {i : Nat} {e : Entry} (he : (r.entries name)[i]? = some e) :
    e.version = UInt32.ofNat i := by
  rw [entries] at he
  split at he
  · exact (hr _ (NameTable.mem_of_find? ‹_›)).numbered i e he
  · cases he

theorem Sound.owned (hr : r.Sound) {e : Entry} (he : e ∈ r.entries name) : e.typeName = name := by
  rw [entries] at he
  split at he
  · rename_i h hfind
    rw [(hr h (NameTable.mem_of_find? hfind)).owned e he, NameTable.nameOf_of_find? hfind]
  · cases he

theorem Sound.version_latest (hr : r.Sound) {e : Entry} (he : r.latest? name = some e) :
    e.version = UInt32.ofNat ((r.entries name).length - 1) := by
  rw [latest?, List.getLast?_eq_getElem?] at he
  exact hr.numbered he

theorem Sound.nextVersion (hr : r.Sound) (name : String) :
    r.nextVersion name = UInt32.ofNat (r.entries name).length := by
  rw [Registry.nextVersion]
  split
  · rename_i hnone
    rw [latest?, List.getLast?_eq_none_iff] at hnone
    rw [hnone]
    rfl
  · rename_i e he
    have hpos : 0 < (r.entries name).length := by
      rw [List.length_pos_iff]
      rintro hnil
      simp [latest?, hnil] at he
    rw [hr.version_latest he, ← UInt32.ofNat_one, ← UInt32.ofNat_add, Nat.sub_add_cancel hpos]

theorem Sound.append (hr : r.Sound) {e : Entry} (hname : e.typeName ≠ "")
    (hversion : e.version = r.nextVersion e.typeName) : (r.append e).Sound := by
  intro h hmem
  rcases NameTable.mem_fileIn hmem with rfl | hmem
  · refine ⟨hname, by simp, fun x hx => ?_, fun i x hx => ?_⟩
    · rcases List.mem_append.mp hx with hx | hx
      · exact hr.owned hx
      · rw [List.mem_singleton.mp hx]
    · rw [List.getElem?_append] at hx
      split at hx
      · exact hr.numbered hx
      · -- The place behind all others is the one that the version counts.
        obtain ⟨hi, rfl⟩ : i - (r.entries e.typeName).length = 0 ∧ e = x := by
          simpa [List.getElem?_singleton] using hx
        rw [hversion, hr.nextVersion]
        congr 1
        omega
  · exact hr h hmem

/-- Recording keeps a registry sound. -/
theorem Sound.record (hr : r.Sound) (h : r.record now name hash = .ok (r', v)) : r'.Sound := by
  obtain ⟨hblank, hrecorded⟩ := record_eq_ok_iff.mp h
  cases hrecorded with
  | kept => exact hr
  | appended =>
    refine hr.append (fun hname => ?_) rfl
    have hempty : name = "" := hname
    rw [hempty] at hblank
    cases hblank

end Registry

end ShapeLedger
