import ShapeLedger.Proofs.Overlay

/-!
Looking up by version. In a reachable registry each history has a name and at
least one entry, and as long as there are numbers for its versions, the entry of
a version stands at the place that the version counts. So what is looked up by
place is what has that version, and the versions of a type are those up to its
latest one. A request adds at most one entry, behind all others of its type, and
a request that is refused adds none.
-/

namespace ShapeLedger

namespace Registry

variable {r r' : Registry} {now : Timestamp} {n name hash : String} {v : UInt32} {e : Entry}
  {q : Request}

/-! ### What can be looked up -/

/-- What is looked up by name and version is what the histories hold. -/
structure Indexed (r : Registry) : Prop where
  named : ∀ h ∈ r.items, h.typeName ≠ ""
  nonempty : ∀ h ∈ r.items, h.entries ≠ []
  owned : ∀ h ∈ r.items, ∀ e ∈ h.entries, e.typeName = h.typeName
  numbered : ∀ h ∈ r.items, ∀ (i : Nat) (e : Entry),
    h.entries[i]? = some e → e.version.toNat = i
  recorded : ∀ n, n ∈ r.names ↔ (r.latest? n).isSome
  upToLatest : ∀ n v, (r.version? n v).isSome ↔ ∃ e, r.latest? n = some e ∧ v ≤ e.version
  version : ∀ n v e, r.version? n v = some e → e.version = v
  versions : ∀ n e, r.latest? n = some e →
    (r.versions n).map UInt32.toNat = List.range (e.version.toNat + 1)
  unrecorded : ∀ n, r.latest? n = none → r.versions n = []
  ascending : r.names.Pairwise (· < ·)
  size : r.size = r.names.length

theorem latest?_eq_none_iff : r.latest? n = none ↔ r.entries n = [] :=
  List.getLast?_eq_none_iff

theorem Sound.isSome_version?_iff (hr : r.Sound) (hroom : (r.entries n).length < UInt32.size) :
    (r.version? n v).isSome ↔ ∃ e, r.latest? n = some e ∧ v ≤ e.version := by
  rw [version?, Option.isSome_iff_ne_none, ne_eq, List.getElem?_eq_none_iff, Nat.not_le]
  constructor
  · intro hv
    have hne : r.entries n ≠ [] := List.ne_nil_of_length_pos (by omega)
    obtain ⟨e, he⟩ := Option.ne_none_iff_exists'.mp (mt latest?_eq_none_iff.mp hne)
    have hlength := hr.toNat_version_latest hroom he
    exact ⟨e, he, UInt32.le_iff_toNat_le.mpr (by omega)⟩
  · rintro ⟨e, he, hv⟩
    have hlength := hr.toNat_version_latest hroom he
    have hle := UInt32.le_iff_toNat_le.mp hv
    omega

theorem Sound.version_of_version? (hr : r.Sound) (he : r.version? n v = some e) :
    e.version = v := by
  rw [hr.numbered he, UInt32.ofNat_toNat]

/-- The versions of a type are the numbers of its places. -/
theorem Sound.map_versions (hr : r.Sound) (hroom : (r.entries n).length ≤ UInt32.size) :
    (r.versions n).map UInt32.toNat = List.range (r.entries n).length := by
  refine List.ext_getElem? fun i => ?_
  rw [versions, List.map_map, List.getElem?_map]
  cases hi : (r.entries n)[i]? with
  | none =>
    rw [List.getElem?_eq_none_iff] at hi
    rw [Option.map_none, List.getElem?_eq_none (by simpa using hi)]
  | some e =>
    have hlt := (List.getElem?_eq_some_iff.mp hi).1
    rw [Option.map_some, List.getElem?_range hlt, Function.comp_apply,
      hr.numbered_of_le hroom i e hi]

theorem indexed_of_sound (hr : r.Sound) (hroom : ∀ n, (r.entries n).length < UInt32.size) :
    r.Indexed where
  named h hmem := (hr h hmem).named
  nonempty h hmem := (hr h hmem).nonempty
  owned h hmem := (hr h hmem).owned
  numbered h hmem := by
    have hnumbered := hr.numbered_of_le (Nat.le_of_lt (hroom h.typeName))
    rw [entries_of_mem hmem] at hnumbered
    exact hnumbered
  recorded n := by
    rw [mem_names_iff hr, Option.isSome_iff_ne_none, ne_eq, ne_eq, latest?_eq_none_iff]
  upToLatest n v := hr.isSome_version?_iff (hroom n)
  version n v e := hr.version_of_version?
  versions n e he := by
    rw [hr.map_versions (Nat.le_of_lt (hroom n)), hr.toNat_version_latest (hroom n) he]
  unrecorded n hn := by
    rw [versions, latest?_eq_none_iff.mp hn, List.map_nil]
  ascending := r.names_ascending
  size := (List.length_map _).symm

/-! ### What a request changes -/

/-- The history of the type has the entry as its last one, and nothing else is different. -/
structure Extended (r : Registry) (name : String) (e : Entry) (r' : Registry) : Prop where
  last : r'.entries name = r.entries name ++ [e]
  others : ∀ n, n ≠ name → r'.find? n = r.find? n

theorem extended_append (r : Registry) (e : Entry) : Extended r e.typeName e (r.append e) := by
  refine ⟨entries_append_self r e, fun n hn => ?_⟩
  rw [append, NameTable.find?_insert, if_neg (Ne.symm hn)]

theorem Recorded.extended (h : Recorded r now name hash r' v) :
    r' = r ∨ Extended r name (r.nextEntry now name hash) r' := by
  cases h with
  | kept => exact .inl rfl
  | appended => exact .inr (extended_append r (r.nextEntry now name hash))

/-- A request to record changes nothing or adds one entry. -/
theorem serve_extended (h : callOf? q = some (name, hash)) (r : Registry) :
    (r.serve q).1 = r ∨
      ∃ now, Extended r name (r.nextEntry now name hash) (r.serve q).1 := by
  cases hblank : Text.blank name with
  | true => exact .inl (by rw [serve_of_blank h hblank])
  | false =>
    obtain ⟨now, r', v, hrecorded, hserve⟩ := serve_of_not_blank h hblank r
    rw [hserve]
    exact hrecorded.extended.imp_right fun hextended => ⟨now, hextended⟩

/-- A request that is refused changes nothing. -/
theorem serve_of_refused {error : RegistryError} (h : (r.serve q).2 = .refused error) :
    (r.serve q).1 = r := by
  cases hcall : callOf? q with
  | none => exact serve_of_no_call hcall r
  | some call =>
    cases hblank : Text.blank call.1 with
    | true => rw [serve_of_blank hcall hblank]
    | false =>
      obtain ⟨now, r', v, -, hserve⟩ := serve_of_not_blank hcall hblank r
      rw [hserve] at h
      cases h

/-- A reachable registry is indexed by name and version, and requests to it only add to the
end of one history. -/
theorem Reachable.indexed (hr : r.Reachable) (hroom : ∀ n, (r.entries n).length < UInt32.size) :
    r.Indexed ∧
      (∀ q name hash, callOf? q = some (name, hash) → (r.serve q).1 = r ∨
        ∃ now, Extended r name (r.nextEntry now name hash) (r.serve q).1) ∧
      ∀ q error, (r.serve q).2 = .refused error → (r.serve q).1 = r :=
  ⟨indexed_of_sound hr.sound hroom, fun _ _ _ hcall => serve_extended hcall r,
    fun _ _ => serve_of_refused⟩

/-! ### A registry with two versions -/

open Ledger (recordedTwice length_recordedTwice_lt reachable_recorded)

/-- To record the older of two fingerprints again makes a third version, and a blank name is
refused. -/
theorem indexed_recordedTwice : Reachable recordedTwice ∧
    (∀ n, (recordedTwice.entries n).length < UInt32.size) ∧ Indexed recordedTwice ∧
    (∃ now, Extended recordedTwice "A" (recordedTwice.nextEntry now "A" "B-X")
      (recordedTwice.serve (.record .epoch "A" "B-X")).1) ∧
    (recordedTwice.serve (.record .epoch " " "B-X")).2 = .refused .emptyTypeName ∧
    (recordedTwice.serve (.record .epoch " " "B-X")).1 = recordedTwice := by
  have hreachable : Reachable recordedTwice := reachable_recorded _ (by simp)
  have hroom := length_recordedTwice_lt
  have hrefused : (recordedTwice.serve (.record .epoch " " "B-X")).2 =
      .refused .emptyTypeName := rfl
  obtain ⟨hindexed, hextended, hunchanged⟩ := hreachable.indexed hroom
  have hchanged : (recordedTwice.serve (.record .epoch "A" "B-X")).1 ≠ recordedTwice := by
    decide +kernel
  exact ⟨hreachable, hroom, hindexed, (hextended _ "A" "B-X" rfl).resolve_left hchanged, hrefused,
    hunchanged _ _ hrefused⟩

end Registry

end ShapeLedger
