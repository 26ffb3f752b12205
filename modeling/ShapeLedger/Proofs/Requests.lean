import Mathlib.Data.List.Infix
import ShapeLedger.Proofs.Recording

/-!
Requests to a registry. A request records a fingerprint, given or found for a
type of a catalog, or it looks at what was recorded. Serving one leaves the
registry as it is or records in it, so what recording preserves every request
preserves, and only the history of the type that is recorded grows.
-/

namespace ShapeLedger

namespace Registry

/-- A request that looks at a registry. -/
inductive Query where
  | check (name hash : String)
  | checkType (c : Catalog) (cfg : Config) (name : String)
  | latest (name : String)
  | requireLatest (name : String)
  | version (name : String) (version : UInt32)
  | versions (name : String)
  | names
  | count

inductive Request where
  | record (now : Timestamp) (name hash : String)
  | recordType (now : Timestamp) (c : Catalog) (cfg : Config) (name : String)
  | query (q : Query)

inductive Reply where
  | refused (e : RegistryError)
  | recorded (version : UInt32)
  | verdict (v : Verdict)
  | entry (e : Option Entry)
  | versions (vs : List UInt32)
  | names (ns : List String)
  | count (n : Nat)

def answer (r : Registry) : Query → Reply
  | .check name hash => .verdict (r.check name hash)
  | .checkType c cfg name =>
    match r.checkType c cfg name with
    | .error e => .refused e
    | .ok v => .verdict v
  | .latest name => .entry (r.latest? name)
  | .requireLatest name =>
    match r.latest name with
    | .error e => .refused e
    | .ok e => .entry (some e)
  | .version name version => .entry (r.version? name version)
  | .versions name => .versions (r.versions name)
  | .names => .names r.names
  | .count => .count r.size

/-- The registry that recording leaves behind. A refused request changes nothing. -/
def settle (r : Registry) : Except RegistryError (Registry × UInt32) → Registry × Reply
  | .error e => (r, .refused e)
  | .ok (r', v) => (r', .recorded v)

def serve (r : Registry) : Request → Registry × Reply
  | .record now name hash => r.settle (r.record now name hash)
  | .recordType now c cfg name => r.settle (r.recordType now c cfg name)
  | .query q => (r, r.answer q)

/-- The registry after requests to an empty one, and the replies to them. -/
def run (qs : List Request) : Registry × List (Request × Reply) :=
  qs.foldl (fun s q => ((s.1.serve q).1, s.2 ++ [(q, (s.1.serve q).2)])) (NameTable.empty, [])

def after (qs : List Request) : Registry := (run qs).1

/-- The type and the fingerprint that a request comes down to recording, if any. -/
def callOf? : Request → Option (String × String)
  | .record _ name hash => some (name, hash)
  | .recordType _ c cfg name => (c.fingerprintOf cfg name).toOption.map (name, ·)
  | .query _ => none

/-- The fingerprint that a request records for the type `name`. -/
def hashFor? (name : String) (q : Request) : Option String :=
  (callOf? q).bind fun call => if call.1 = name then some call.2 else none

/-- The fingerprints that requests record for the type `name`, in order. -/
def hashesFor (name : String) (qs : List Request) : List String := qs.filterMap (hashFor? name)

/-- The replies to the requests that record for the type `name`, in order. -/
def repliesFor (name : String) (qs : List Request) : List Reply :=
  ((run qs).2.filter fun x => (hashFor? name x.1).isSome).map Prod.snd

variable {r r' : Registry} {now : Timestamp} {name hash : String} {v : UInt32} {q : Request}

theorem run_concat (qs : List Request) (q : Request) : run (qs ++ [q]) =
    (((after qs).serve q).1, (run qs).2 ++ [(q, ((after qs).serve q).2)]) := by
  rw [run, List.foldl_append]
  rfl

@[simp] theorem after_nil : after [] = NameTable.empty := rfl

theorem after_concat (qs : List Request) (q : Request) :
    after (qs ++ [q]) = ((after qs).serve q).1 := by
  rw [after, run_concat]

theorem hashFor?_eq_some_iff : hashFor? name q = some hash ↔ callOf? q = some (name, hash) := by
  rw [hashFor?, Option.bind_eq_some_iff]
  constructor
  · rintro ⟨call, hcall, heq⟩
    split at heq
    · rename_i hname
      rw [hcall, ← hname, ← Option.some.inj heq]
    · cases heq
  · exact fun h => ⟨(name, hash), h, if_pos rfl⟩

/-- A request that comes down to recording is served as the request to record. -/
theorem serve_of_call (h : callOf? q = some (name, hash)) (r : Registry) :
    ∃ now, r.serve q = r.settle (r.record now name hash) := by
  cases q with
  | record now n s =>
    cases h
    exact ⟨now, rfl⟩
  | recordType now c cfg n =>
    rw [callOf?] at h
    cases hfingerprint : c.fingerprintOf cfg n with
    | error e => simp [hfingerprint, Except.toOption] at h
    | ok s =>
      rw [hfingerprint] at h
      cases h
      exact ⟨now, by rw [serve, recordType, hfingerprint]⟩
  | query => cases h

/-- What else is requested changes nothing. -/
theorem serve_of_no_call (h : callOf? q = none) (r : Registry) : (r.serve q).1 = r := by
  cases q with
  | record => cases h
  | recordType now c cfg n =>
    rw [callOf?] at h
    cases hfingerprint : c.fingerprintOf cfg n with
    | error e =>
      rw [serve, recordType, hfingerprint]
      rfl
    | ok s => simp [hfingerprint, Except.toOption] at h
  | query => rfl

theorem serve_of_blank (h : callOf? q = some (name, hash)) (hblank : Text.blank name = true)
    (r : Registry) : r.serve q = (r, .refused .emptyTypeName) := by
  obtain ⟨now, hserve⟩ := serve_of_call h r
  rw [hserve, record_of_blank r now hash hblank, settle]

theorem serve_of_not_blank (h : callOf? q = some (name, hash)) (hblank : Text.blank name = false)
    (r : Registry) : ∃ now r' v, Recorded r now name hash r' v ∧ r.serve q = (r', .recorded v) := by
  obtain ⟨now, hserve⟩ := serve_of_call h r
  obtain ⟨r', v, hrecord⟩ := exists_record_of_not_blank r now hash hblank
  exact ⟨now, r', v, (record_eq_ok_iff.mp hrecord).2, by rw [hserve, hrecord, settle]⟩

/-! ### What a request preserves -/

/-- The digest of each entry is that of its fingerprint. -/
def Intact (r : Registry) : Prop := ∀ h ∈ r.items, ∀ e ∈ h.entries, e.digest = Digest.ofText e.hash

theorem Intact.digest (hr : r.Intact) {e : Entry} (he : e ∈ r.entries name) :
    e.digest = Digest.ofText e.hash := by
  rw [entries] at he
  split at he
  · exact hr _ (NameTable.mem_of_find? ‹_›) e he
  · cases he

theorem Intact.append (hr : r.Intact) {e : Entry} (he : e.digest = Digest.ofText e.hash) :
    (r.append e).Intact := by
  intro h hmem x hx
  rcases NameTable.mem_fileIn hmem with rfl | hmem
  · rcases List.mem_append.mp hx with hx | hx
    · exact hr.digest hx
    · rw [List.mem_singleton.mp hx, he]
  · exact hr h hmem x hx

theorem Intact.record (hr : r.Intact) (h : r.record now name hash = .ok (r', v)) : r'.Intact := by
  cases (record_eq_ok_iff.mp h).2 with
  | kept => exact hr
  | appended => exact hr.append rfl

/-- Recording keeps the entries that there are. -/
theorem Recorded.keeps_entries (h : Recorded r now name hash r' v) (other : String) :
    r.entries other <+: r'.entries other := by
  cases h with
  | kept => exact List.prefix_refl _
  | appended =>
    by_cases hother : name = other
    · rw [← hother, entries_append_nextEntry]
      exact List.prefix_append _ _
    · rw [entries_append_of_ne r hother]

theorem Recorded.entries_ne_nil (h : Recorded r now name hash r' v) : r'.entries name ≠ [] := by
  cases h with
  | kept latest => exact List.ne_nil_of_mem (List.mem_of_getLast? latest)
  | appended =>
    rw [entries_append_nextEntry]
    exact List.append_ne_nil_of_right_ne_nil _ (List.cons_ne_nil _ _)

theorem Recorded.entries_of_ne (h : Recorded r now name hash r' v) {other : String}
    (hother : name ≠ other) : r'.entries other = r.entries other := by
  cases h with
  | kept => rfl
  | appended => exact entries_append_of_ne r hother

/-- A fingerprint becomes a version if the latest one differs. -/
theorem Recorded.hashes (h : Recorded r now name hash r' v) (hr : r.Intact) :
    (r'.entries name).map Entry.hash =
      if ((r.entries name).map Entry.hash).getLast? = some hash then
        (r.entries name).map Entry.hash
      else (r.entries name).map Entry.hash ++ [hash] := by
  have hlast : ((r.entries name).map Entry.hash).getLast? = (r.latest? name).map Entry.hash :=
    List.getLast?_map
  cases h with
  | kept latest digest same => rw [hlast, latest, Option.map_some, same, if_pos rfl]
  | appended new =>
    have hdiffers : ((r.entries name).map Entry.hash).getLast? ≠ some hash := by
      rw [hlast]
      intro hsame
      obtain ⟨e, latest, same⟩ := Option.map_eq_some_iff.mp hsame
      have hdigest := hr.digest (List.mem_of_getLast? latest)
      exact new e latest (same ▸ hdigest) same
    rw [if_neg hdiffers, entries_append_nextEntry, List.map_append]
    rfl

theorem Recorded.version (h : Recorded r now name hash r' v) (hr : r.Sound) :
    v = UInt32.ofNat ((r'.entries name).length - 1) := by
  cases h with
  | kept latest => exact hr.version_latest latest
  | appended =>
    rw [entries_append_nextEntry, hr.nextVersion, List.length_append]
    rfl

/-- A request leaves the registry as it is, or records in it. -/
theorem serve_cases (r : Registry) (q : Request) : (r.serve q).1 = r ∨
    ∃ now name hash v, r.record now name hash = .ok ((r.serve q).1, v) := by
  cases hcall : callOf? q with
  | none => exact .inl (serve_of_no_call hcall r)
  | some call =>
    obtain ⟨now, hserve⟩ := serve_of_call hcall r
    rw [hserve]
    cases hrecord : r.record now call.1 call.2 with
    | error e => exact .inl rfl
    | ok result => exact .inr ⟨now, call.1, call.2, result.2, hrecord⟩

/-- What recording preserves, every request preserves. -/
theorem serve_preserves {P : Registry → Prop}
    (hrecord : ∀ {r r' now name hash v}, record r now name hash = .ok (r', v) → P r → P r')
    (hr : P r) (q : Request) : P (r.serve q).1 := by
  rcases r.serve_cases q with h | ⟨now, name, hash, v, h⟩
  · rw [h]
    exact hr
  · exact hrecord h hr

theorem serve_keeps_entries (r : Registry) (q : Request) (name : String) :
    r.entries name <+: (r.serve q).1.entries name := by
  rcases r.serve_cases q with h | ⟨now, n, hash, v, h⟩
  · rw [h]
  · exact (record_eq_ok_iff.mp h).2.keeps_entries name

/-- A request that records nothing for a type leaves its history as it is. -/
theorem entries_serve_of_other (h : hashFor? name q = none) (r : Registry) :
    (r.serve q).1.entries name = r.entries name := by
  cases hcall : callOf? q with
  | none => rw [serve_of_no_call hcall]
  | some call =>
    have hname : call.1 ≠ name := by
      rintro rfl
      rw [hashFor?_eq_some_iff.mpr hcall] at h
      cases h
    cases hblank : Text.blank call.1 with
    | true => rw [serve_of_blank hcall hblank]
    | false =>
      obtain ⟨now, r', v, hrecorded, hserve⟩ := serve_of_not_blank hcall hblank r
      rw [hserve]
      exact hrecorded.entries_of_ne hname

end Registry

end ShapeLedger
