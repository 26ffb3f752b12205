import Mathlib.Data.List.Induction
import ShapeLedger.Proofs.Loading

/-!
Sessions with registries. A registry is reachable if it stands at some place
after steps that make empty ones, record in them, load them from files and copy
them. Reachable registries are sound, whatever the files hold. What a check
announces is then what recording does, unless the latest entry has the
fingerprint with a digest of another text.
-/

namespace ShapeLedger

open FileTree (Route)

namespace Registry

/-- A step of a session. The registries of a session stand at places, counted from zero. -/
inductive Step where
  | create
  | record (place : Nat) (now : Timestamp) (name hash : String)
  | load (root : Route) (files : FileTree)
  | copy (place : Nat)

/-- What a step makes of the registries. A step that fails changes none of them. -/
def perform (rs : List Registry) : Step → List Registry
  | .create => rs ++ [NameTable.empty]
  | .record place now name hash =>
    match rs[place]? with
    | none => rs
    | some r =>
      match r.record now name hash with
      | .error _ => rs
      | .ok (r', _) => rs.set place r'
  | .load root files =>
    match Ledger.load root files with
    | .error _ => rs
    | .ok r => rs ++ [r]
  | .copy place => rs ++ rs[place]?.toList

/-- The registries after the steps of a session. -/
def afterSteps (steps : List Step) : List Registry := steps.foldl perform []

def Reachable (r : Registry) : Prop := ∃ steps, r ∈ afterSteps steps

variable {r r' : Registry} {now : Timestamp} {name hash : String} {v w : UInt32}

/-- Where a registry may come from in a step. -/
theorem mem_perform {rs : List Registry} {step : Step} (h : r ∈ perform rs step) :
    r ∈ rs ∨ r = NameTable.empty ∨
      (∃ old ∈ rs, ∃ now name hash v, old.record now name hash = .ok (r, v)) ∨
      ∃ root files, Ledger.load root files = .ok r := by
  cases step with
  | create =>
    rcases List.mem_append.mp h with h | h
    · exact .inl h
    · exact .inr (.inl (List.mem_singleton.mp h))
  | record place now name hash =>
    rw [perform] at h
    split at h
    · exact .inl h
    · rename_i old hold
      split at h
      · exact .inl h
      · rename_i new v hrecord
        rcases List.mem_or_eq_of_mem_set h with h | rfl
        · exact .inl h
        · exact .inr (.inr (.inl ⟨old, List.mem_of_getElem? hold, now, name, hash, v, hrecord⟩))
  | load root files =>
    rw [perform] at h
    split at h
    · exact .inl h
    · rename_i new hload
      rcases List.mem_append.mp h with h | h
      · exact .inl h
      · cases List.mem_singleton.mp h
        exact .inr (.inr (.inr ⟨root, files, hload⟩))
  | copy place =>
    rcases List.mem_append.mp h with h | h
    · exact .inl h
    · exact .inl (List.mem_of_getElem? (Option.mem_toList.mp h))

theorem sound_perform {rs : List Registry} (hrs : ∀ r ∈ rs, r.Sound) (step : Step) :
    ∀ r ∈ perform rs step, r.Sound := by
  intro r hr
  rcases mem_perform hr with hr | rfl | ⟨old, hold, now, name, hash, v, hrecord⟩ |
    ⟨root, files, hload⟩
  · exact hrs r hr
  · exact sound_empty
  · exact (hrs old hold).record hrecord
  · exact Ledger.sound_of_load hload

theorem sound_afterSteps (steps : List Step) : ∀ r ∈ afterSteps steps, r.Sound := by
  induction steps using List.reverseRecOn with
  | nil => exact fun r hr => nomatch hr
  | append_singleton steps step ih =>
    rw [afterSteps, List.foldl_append]
    exact sound_perform ih step

/-- A registry that can be reached is sound, also one that is loaded from forged files. -/
theorem Reachable.sound (hr : r.Reachable) : r.Sound := by
  obtain ⟨steps, hmem⟩ := hr
  exact sound_afterSteps steps r hmem

/-! ### Checking and recording -/

theorem check_eq_unrecorded_iff :
    r.check name hash = .unrecorded ↔ r.latest? name = none := by
  rw [check]
  split
  · simp [*]
  · split <;> simp [*]

theorem check_eq_upToDate_iff : r.check name hash = .upToDate v ↔
    ∃ e, r.latest? name = some e ∧ e.hash = hash ∧ e.version = v := by
  rw [check]
  split
  · simp [*]
  · split <;> simp [*]

theorem check_eq_migrationRequired_iff {changes : List Change} :
    r.check name hash = .migrationRequired v w changes ↔
      ∃ e, r.latest? name = some e ∧ e.hash ≠ hash ∧ e.version = v ∧ e.version + 1 = w ∧
        Shape.diff e.hash hash = changes := by
  rw [check]
  split
  · simp [*]
  · split <;> simp [*]

theorem record_eq_self_iff (hblank : Text.blank name = false) :
    r.record now name hash = .ok (r, v) ↔
      ∃ e, r.latest? name = some e ∧ e.digest = Digest.ofText hash ∧ e.hash = hash ∧
        e.version = v := by
  constructor
  · intro h
    by_cases hsame : ∃ e, r.latest? name = some e ∧ e.digest = Digest.ofText hash ∧ e.hash = hash
    · obtain ⟨e, latest, digest, same⟩ := hsame
      cases h.symm.trans (record_of_same hblank latest digest same)
      exact ⟨e, latest, digest, same, rfl⟩
    · rw [record_of_new hblank fun e latest digest same => hsame ⟨e, latest, digest, same⟩,
        Except.ok.injEq, Prod.mk.injEq] at h
      exact absurd h.1 (append_ne_self r _)
  · rintro ⟨e, latest, digest, same, rfl⟩
    exact record_of_same hblank latest digest same

/-- Recording makes the fingerprint the version `v` of the type, in one new entry, and
changes no other history. -/
def Appends (r : Registry) (now : Timestamp) (name hash : String) (v : UInt32) : Prop :=
  ∃ r', r.record now name hash = .ok (r', v) ∧
    r'.entries name = r.entries name ++ [⟨name, v, hash, Digest.ofText hash, now⟩] ∧
    ∀ other, other ≠ name → r'.entries other = r.entries other

theorem appends_iff (hblank : Text.blank name = false) : r.Appends now name hash v ↔
    (∀ e, r.latest? name = some e → e.digest = Digest.ofText hash → e.hash ≠ hash) ∧
      r.nextVersion name = v := by
  constructor
  · rintro ⟨r', hrecord, hentries, -⟩
    obtain ⟨-, hrecorded⟩ := record_eq_ok_iff.mp hrecord
    cases hrecorded with
    | kept => simp at hentries
    | appended new => exact ⟨new, rfl⟩
  · rintro ⟨new, rfl⟩
    exact ⟨_, record_of_new hblank new, entries_append_nextEntry r now name hash,
      fun other hother => entries_append_of_ne r hother.symm⟩

/-- At any moment, recording a fingerprint does what checking it announces. -/
structure Agrees (r : Registry) (name hash : String) : Prop where
  unrecorded : ∀ now, r.check name hash = .unrecorded ↔ r.Appends now name hash 0
  upToDate : ∀ now v, r.check name hash = .upToDate v ↔ r.record now name hash = .ok (r, v)
  migrationRequired : ∀ now v w, (∃ changes, r.check name hash = .migrationRequired v w changes) ↔
    (∃ e, r.latest? name = some e ∧ e.version = v) ∧ w.toNat = v.toNat + 1 ∧
      r.Appends now name hash w

theorem Sound.toNat_nextVersion (hr : r.Sound) (hroom : (r.entries name).length < UInt32.size) :
    (r.nextVersion name).toNat = (r.entries name).length := by
  rw [hr.nextVersion, UInt32.toNat_ofNat_of_lt' hroom]

theorem Sound.toNat_version_latest (hr : r.Sound)
    (hroom : (r.entries name).length < UInt32.size) {e : Entry} (he : r.latest? name = some e) :
    e.version.toNat + 1 = (r.entries name).length := by
  have hpos : 0 < (r.entries name).length :=
    List.length_pos_of_mem (List.mem_of_getLast? he)
  rw [hr.version_latest he, UInt32.toNat_ofNat_of_lt' (by omega)]
  omega

theorem nextVersion_of_latest {e : Entry} (he : r.latest? name = some e) :
    r.nextVersion name = e.version + 1 := by
  rw [nextVersion, he]

theorem Agrees.digest (h : r.Agrees name hash) (hblank : Text.blank name = false) {e : Entry}
    (latest : r.latest? name = some e) (same : e.hash = hash) : e.digest = Digest.ofText hash := by
  have hcheck : r.check name hash = .upToDate e.version :=
    check_eq_upToDate_iff.mpr ⟨e, latest, same, rfl⟩
  have hrecord := (h.upToDate .epoch e.version).mp hcheck
  obtain ⟨e', latest', digest, -⟩ := (record_eq_self_iff hblank).mp hrecord
  cases latest.symm.trans latest'
  exact digest

/-- If the latest entry does not have the fingerprint with another digest, recording compares
what checking compares. -/
theorem Sound.agrees (hr : r.Sound) (hblank : Text.blank name = false)
    (hroom : (r.entries name).length < UInt32.size)
    (hdigest : ∀ e, r.latest? name = some e → e.hash = hash → e.digest = Digest.ofText hash) :
    r.Agrees name hash := by
  -- Then the digest adds nothing to the condition under which recording appends.
  have hnew : (∀ e, r.latest? name = some e → e.digest = Digest.ofText hash → e.hash ≠ hash) ↔
      ∀ e, r.latest? name = some e → e.hash ≠ hash :=
    ⟨fun new e latest same => new e latest (hdigest e latest same) same,
      fun new e latest _ => new e latest⟩
  refine ⟨fun now => ?_, fun now v => ?_, fun now v w => ?_⟩
  · rw [check_eq_unrecorded_iff, appends_iff hblank, hnew]
    constructor
    · intro hnone
      simp [Registry.nextVersion, hnone]
    · rintro ⟨-, hzero⟩
      have hlength := hr.toNat_nextVersion hroom
      rw [hzero] at hlength
      rw [latest?, List.eq_nil_of_length_eq_zero hlength.symm, List.getLast?_nil]
  · rw [check_eq_upToDate_iff, record_eq_self_iff hblank]
    refine exists_congr fun e => and_congr_right fun latest => ?_
    constructor
    · rintro ⟨same, hv⟩
      exact ⟨hdigest e latest same, same, hv⟩
    · rintro ⟨-, same, hv⟩
      exact ⟨same, hv⟩
  · simp only [check_eq_migrationRequired_iff]
    rw [appends_iff hblank, hnew]
    constructor
    · rintro ⟨_, e, latest, differs, rfl, rfl, -⟩
      refine ⟨⟨e, latest, rfl⟩, ?_, fun e' latest' => ?_, nextVersion_of_latest latest⟩
      · rw [← nextVersion_of_latest latest, hr.toNat_nextVersion hroom,
          hr.toNat_version_latest hroom latest]
      · cases latest.symm.trans latest'
        exact differs
    · rintro ⟨⟨e, latest, rfl⟩, -, differs, rfl⟩
      exact ⟨_, e, latest, differs e latest, rfl, (nextVersion_of_latest latest).symm, rfl⟩

/-- The digest of the latest entry decides whether recording does what checking announces. -/
theorem Reachable.agrees_iff (hr : r.Reachable) (hblank : Text.blank name = false)
    (hroom : (r.entries name).length < UInt32.size) : r.Agrees name hash ↔
      ∀ e, r.latest? name = some e → e.hash = hash → e.digest = Digest.ofText hash :=
  ⟨fun h _ latest same => h.digest hblank latest same, hr.sound.agrees hblank hroom⟩

/-- The registry with one version of one type. -/
def single (e : Entry) : Registry := append NameTable.empty e

/-- What a session has after it recorded one fingerprint. -/
def recordedOnce : Registry := single ⟨"A", 0, "B-X", Digest.ofText "B-X", Timestamp.epoch⟩

theorem agrees_recordedOnce : Reachable recordedOnce ∧ Text.blank "A" = false ∧
    (entries recordedOnce "A").length < UInt32.size ∧ Agrees recordedOnce "A" "B-X" := by
  have hreachable : Reachable recordedOnce := by
    have hafter : afterSteps [.create, .record 0 Timestamp.epoch "A" "B-X"] = [recordedOnce] := rfl
    exact ⟨_, hafter ▸ List.mem_singleton_self _⟩
  have hblank : Text.blank "A" = false := by decide
  have hroom : (entries recordedOnce "A").length < UInt32.size := by decide
  refine ⟨hreachable, hblank, hroom, (hreachable.agrees_iff hblank hroom).mpr ?_⟩
  intro e latest same
  cases latest
  rfl

/-! ### A forged digest -/

/-- The file of an entry with the empty fingerprint and a digest that is not its own. -/
def forgedText : String :=
  "[\"A\",0,\"\",\"00000000000000000000000000000000\",[0,0]]"

def forgedEntry : Entry :=
  ⟨"A", 0, "", ⟨List.replicate 16 0, List.length_replicate⟩, Timestamp.epoch⟩

def forgedDirectory : List (String × FileTree) := [("v0.json", .file forgedText.toByteArray)]

/-- A ledger with one type, in the directory `ledger`. -/
def forgedLedger : FileTree :=
  .directory [("ledger", .directory [("41", .directory forgedDirectory)])]

set_option maxRecDepth 100000 in
theorem ofText?_forgedText : Entry.ofText? forgedText = some forgedEntry := by
  decide +kernel

theorem readHistory_forgedDirectory :
    Ledger.readHistory ⟨["ledger", "41"]⟩ "A" forgedDirectory = .ok [forgedEntry] := by
  have htext : String.fromUTF8? forgedText.toByteArray = some forgedText := by decide +kernel
  have hversion : Ledger.version? "v0.json" = some 0 := by decide +kernel
  have hallowed : (Route.join ⟨["ledger", "41"]⟩ "v0.json").isAllowed = true := by
    decide +kernel
  have hentry : Ledger.readEntry (Route.join ⟨["ledger", "41"]⟩ "v0.json") "A" 0
      (.file forgedText.toByteArray) = .ok forgedEntry := by
    simp [Ledger.readEntry, hallowed, Ledger.textOf?, htext, ofText?_forgedText, forgedEntry]
  simp [Ledger.readHistory, Ledger.readEntries, Ledger.firstMissing?, forgedDirectory, hversion,
    hentry, Except.map, forgedEntry]

theorem load_forgedLedger :
    Ledger.load ⟨["ledger"]⟩ forgedLedger = .ok (single forgedEntry) := by
  have hfind : FileTree.find? ⟨["ledger"]⟩ forgedLedger =
      some (.directory [("41", .directory forgedDirectory)]) := rfl
  have htype : Ledger.typeDirectory? ⟨["ledger"]⟩ ("41", .directory forgedDirectory) =
      some ("A", forgedDirectory) := by
    have hname : Ledger.typeName? "41" = some "A" := by decide +kernel
    have hallowed : (Route.join ⟨["ledger"]⟩ "41").isAllowed = true := by decide +kernel
    rw [Ledger.typeDirectory?.eq_def]
    simp [hname, hallowed]
  have hroute : Route.join ⟨["ledger"]⟩ "41" = ⟨["ledger", "41"]⟩ := by decide +kernel
  simp only [Ledger.load, hfind, Ledger.loadInto, htype, hroute, readHistory_forgedDirectory]
  rfl

/-- A ledger that loads although a digest in it was changed. A check finds the fingerprint
recorded, and recording makes another version of it. -/
theorem not_agrees_forgedLedger : ∃ r : Registry, r.Reachable ∧ Text.blank "A" = false ∧
    (r.entries "A").length < UInt32.size ∧ r.check "A" "" = .upToDate 0 ∧
    (∀ now, r.Appends now "A" "" 1) ∧ ¬ r.Agrees "A" "" := by
  have hreachable : Reachable (single forgedEntry) := by
    have hafter : afterSteps [.load ⟨["ledger"]⟩ forgedLedger] = [single forgedEntry] := by
      rw [afterSteps, List.foldl_cons, List.foldl_nil, perform, load_forgedLedger]
      rfl
    exact ⟨_, hafter ▸ List.mem_singleton_self _⟩
  have hblank : Text.blank "A" = false := by decide
  have hroom : (entries (single forgedEntry) "A").length < UInt32.size := by decide
  have hlatest : latest? (single forgedEntry) "A" = some forgedEntry := rfl
  have hdigest : forgedEntry.digest ≠ Digest.ofText "" := by decide +kernel
  refine ⟨single forgedEntry, hreachable, hblank, hroom, rfl, fun now => ?_, fun hagrees => ?_⟩
  · rw [appends_iff hblank]
    refine ⟨fun e he digest => ?_, rfl⟩
    cases hlatest.symm.trans he
    exact absurd digest hdigest
  · exact hdigest (hagrees.digest hblank hlatest rfl)

end Registry

end ShapeLedger
