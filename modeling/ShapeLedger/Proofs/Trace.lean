import Mathlib.Data.List.Destutter
import Mathlib.Data.List.Induction
import ShapeLedger.Proofs.Requests
import ShapeLedger.Proofs.Sessions

/-!
The trace of a run. The fingerprints that a type was asked to record, one after
the other, make its history: each of them that differs from the one before it is
a version. What other types record in between does not matter, nor does what is
looked at, so the requests for each type determine the replies to them and, apart
from the times, the registry.
-/

namespace ShapeLedger

section Destutter

variable {α : Type} [DecidableEq α]

theorem destutter'_concat (a b : α) (l : List α) : (l ++ [b]).destutter' (· ≠ ·) a =
    if (l.destutter' (· ≠ ·) a).getLast? = some b then l.destutter' (· ≠ ·) a
    else l.destutter' (· ≠ ·) a ++ [b] := by
  induction l generalizing a with
  | nil =>
    by_cases h : a = b <;> simp [h]
  | cons c l ih =>
    rw [List.cons_append]
    by_cases h : a = c
    · rw [List.destutter'_cons_neg _ (not_not.mpr h), List.destutter'_cons_neg _ (not_not.mpr h)]
      exact ih a
    · rw [List.destutter'_cons_pos _ h, List.destutter'_cons_pos _ h, ih c,
        List.getLast?_cons_of_ne_nil (List.destutter'_ne_nil _ _)]
      split <;> rfl

/-- Of equal neighbours one is kept, so the last of the kept decides about one more. -/
theorem destutter_concat (l : List α) (b : α) : (l ++ [b]).destutter (· ≠ ·) =
    if (l.destutter (· ≠ ·)).getLast? = some b then l.destutter (· ≠ ·)
    else l.destutter (· ≠ ·) ++ [b] := by
  cases l with
  | nil => rfl
  | cons a l => exact destutter'_concat a b l

end Destutter

namespace Registry

variable {name hash : String} {q : Request}

/-! ### What a run makes of a registry -/

theorem after_preserves {P : Registry → Prop} (hempty : P NameTable.empty)
    (hrecord : ∀ {r r' now name hash v}, record r now name hash = .ok (r', v) → P r → P r')
    (qs : List Request) : P (after qs) := by
  induction qs using List.reverseRecOn with
  | nil => exact hempty
  | append_singleton qs q ih =>
    rw [after_concat]
    exact serve_preserves hrecord ih q

theorem sound_after (qs : List Request) : (after qs).Sound :=
  after_preserves sound_empty (fun h hr => Sound.record hr h) qs

theorem intact_after (qs : List Request) : (after qs).Intact :=
  after_preserves (fun _ hmem => nomatch hmem) (fun h hr => Intact.record hr h) qs

/-- What was recorded and never loaded is recorded as it is checked. -/
theorem agrees_after {qs : List Request} (hblank : Text.blank name = false)
    (hroom : ((after qs).entries name).length < UInt32.size) : (after qs).Agrees name hash :=
  (sound_after qs).agrees hblank hroom fun _ latest same =>
    same ▸ (intact_after qs).digest (List.mem_of_getLast? latest)

theorem after_keeps_entries (before behind : List Request) (name : String) :
    (after before).entries name <+: (after (before ++ behind)).entries name := by
  induction behind using List.reverseRecOn with
  | nil => rw [List.append_nil]
  | append_singleton behind q ih =>
    rw [← List.append_assoc, after_concat]
    exact ih.trans (serve_keeps_entries _ q name)

/-- The fingerprints in the history of a type, if it is asked to record `hs` one after the other. -/
def historyOf (name : String) (hs : List String) : List String :=
  if Text.blank name then [] else hs.destutter (· ≠ ·)

theorem hashesFor_concat (name : String) (qs : List Request) (q : Request) :
    hashesFor name (qs ++ [q]) = hashesFor name qs ++ (hashFor? name q).toList := by
  rw [hashesFor, List.filterMap_append]
  cases h : hashFor? name q <;> simp [hashesFor, h]

theorem hashes_after (name : String) (qs : List Request) :
    ((after qs).entries name).map Entry.hash = historyOf name (hashesFor name qs) := by
  induction qs using List.reverseRecOn with
  | nil => simp [hashesFor, historyOf]
  | append_singleton qs q ih =>
    rw [after_concat, hashesFor_concat]
    cases hq : hashFor? name q with
    | none => rw [entries_serve_of_other hq, ih, Option.toList_none, List.append_nil]
    | some hash =>
      -- The last entry holds the last of the kept fingerprints, so both decide alike.
      have hcall := hashFor?_eq_some_iff.mp hq
      cases hblank : Text.blank name with
      | true =>
        rw [serve_of_blank hcall hblank, ih]
        simp [historyOf, hblank]
      | false =>
        obtain ⟨now, r', v, hrecorded, hserve⟩ := serve_of_not_blank hcall hblank (after qs)
        rw [hserve, hrecorded.hashes (intact_after qs), ih]
        simp [historyOf, hblank, destutter_concat]

theorem length_entries_after_le (name : String) (qs : List Request) :
    ((after qs).entries name).length ≤ qs.length := by
  have hhistory : (historyOf name (hashesFor name qs)).length ≤ (hashesFor name qs).length := by
    rw [historyOf]
    split
    · exact Nat.zero_le _
    · exact (List.destutter_sublist _ _).length_le
  have hlength := congrArg List.length (hashes_after name qs)
  rw [List.length_map] at hlength
  exact hlength ▸ hhistory.trans (List.length_filterMap_le _ _)

/-- The reply to the last of the requests to record `hs` for a type. -/
def replyTo (name : String) (hs : List String) : Reply :=
  if Text.blank name then .refused .emptyTypeName
  else .recorded (UInt32.ofNat ((historyOf name hs).length - 1))

theorem reply_of_call (h : hashFor? name q = some hash) (qs : List Request) :
    ((after qs).serve q).2 = replyTo name (hashesFor name (qs ++ [q])) := by
  have hcall := hashFor?_eq_some_iff.mp h
  rw [replyTo]
  cases hblank : Text.blank name with
  | true =>
    rw [serve_of_blank hcall hblank]
    rfl
  | false =>
    obtain ⟨now, r', v, hrecorded, hserve⟩ := serve_of_not_blank hcall hblank (after qs)
    have hafter : after (qs ++ [q]) = r' := by rw [after_concat, hserve]
    rw [← hashes_after, List.length_map, hafter, hserve, hrecorded.version (sound_after qs)]
    rfl

theorem tail_inits_concat {α : Type} (l : List α) (a : α) :
    (l ++ [a]).inits.tail = l.inits.tail ++ [l ++ [a]] := by
  cases l with
  | nil => rfl
  | cons b l => simp [List.inits_append]

/-- The replies for a type depend on its own requests only. -/
theorem repliesFor_eq (name : String) (qs : List Request) :
    repliesFor name qs = (hashesFor name qs).inits.tail.map (replyTo name) := by
  induction qs using List.reverseRecOn with
  | nil => rfl
  | append_singleton qs q ih =>
    rw [repliesFor] at ih ⊢
    rw [run_concat, List.filter_append, List.map_append, ih]
    cases hq : hashFor? name q with
    | none => simp [hq, hashesFor_concat]
    | some hash =>
      -- The last list of fingerprints is that of all requests, the others are those of `qs`.
      have hreply := reply_of_call hq qs
      rw [hashesFor_concat, hq, Option.toList_some] at hreply ⊢
      rw [tail_inits_concat, List.map_append, List.map_singleton, ← hreply]
      simp [hq]

end Registry

/-! ### Registries apart from their times -/

def Entry.untimed (e : Entry) : Entry := { e with recordedAt := .epoch }

def History.untimed (h : History) : History := { h with entries := h.entries.map Entry.untimed }

namespace Registry

variable {r : Registry} {name : String}

/-- A registry that recorded everything at the beginning of 1970. -/
def untimed (r : Registry) : Registry :=
  ⟨r.items.map History.untimed, List.pairwise_map.mpr r.ascending⟩

theorem find?_untimed (r : Registry) (name : String) :
    r.untimed.find? name = (r.find? name).map History.untimed :=
  List.find?_map

/-- In a sound registry, types with the same entries have the same history. -/
theorem untimed_eq {r' : Registry} (hr : r.Sound) (hr' : r'.Sound)
    (h : ∀ name, (r.entries name).map Entry.untimed = (r'.entries name).map Entry.untimed) :
    r.untimed = r'.untimed := by
  have hfind (r : Registry) (hr : r.Sound) (name : String) : r.untimed.find? name =
      if (r.entries name).map Entry.untimed = [] then none
      else some ⟨name, (r.entries name).map Entry.untimed⟩ := by
    rw [find?_untimed]
    cases hname : r.find? name with
    | none => simp [hr.entries_eq_nil_iff.mpr hname]
    | some h =>
      have hnonempty : (r.entries name).map Entry.untimed ≠ [] := by
        simp [hr.entries_eq_nil_iff, hname]
      rw [if_neg hnonempty, entries, hname, ← NameTable.nameOf_of_find? hname]
      rfl
  refine NameTable.ext_find? fun name => ?_
  rw [hfind r hr, hfind r' hr', h]

theorem Sound.map_untimed (hr : r.Sound) (hi : r.Intact) (name : String) :
    (r.entries name).map Entry.untimed = ((r.entries name).map Entry.hash).mapIdx
      fun i hash => ⟨name, UInt32.ofNat i, hash, Digest.ofText hash, .epoch⟩ := by
  refine List.ext_getElem? fun i => ?_
  rw [List.getElem?_map, List.getElem?_mapIdx, List.getElem?_map]
  cases he : (r.entries name)[i]? with
  | none => rfl
  | some e =>
    have hmem := List.mem_of_getElem? he
    simp [Entry.untimed, hr.owned hmem, hr.numbered he, hi.digest hmem]

/-- Requests that record the same for each type, one after the other, make the same registry
apart from the times. -/
theorem untimed_after {qs qs' : List Request}
    (h : ∀ name, hashesFor name qs = hashesFor name qs') :
    (after qs).untimed = (after qs').untimed := by
  refine untimed_eq (sound_after qs) (sound_after qs') fun name => ?_
  rw [(sound_after qs).map_untimed (intact_after qs), (sound_after qs').map_untimed
    (intact_after qs'), hashes_after, hashes_after, h]

/-! ### The trace of a run -/

/-- What a registry and its replies say about the requests that it served. -/
structure Traced (qs : List Request) : Prop where
  /-- The history of a type holds what it was asked to record, each repetition once. -/
  hashes : ∀ name, Text.blank name = false →
    ((after qs).entries name).map Entry.hash = (hashesFor name qs).destutter (· ≠ ·)
  versions : ∀ name i (e : Entry), ((after qs).entries name)[i]? = some e →
    e.typeName = name ∧ e.version.toNat = i
  digests : ∀ h ∈ (after qs).items, ∀ e ∈ h.entries, e.digest = Digest.ofText e.hash
  blank : ∀ name, Text.blank name = true → (after qs).find? name = none
  refused : ∀ before q behind name hash, qs = before ++ q :: behind →
    callOf? q = some (name, hash) → Text.blank name = true →
    (after before).serve q = (after before, .refused .emptyTypeName)
  /-- The version that is returned is the latest one of the history that is left behind. -/
  recorded : ∀ before q behind name hash, qs = before ++ q :: behind →
    callOf? q = some (name, hash) → Text.blank name = false →
    ∃ v, (after before).serve q = (after (before ++ [q]), .recorded v) ∧
      v.toNat + 1 = ((after (before ++ [q])).entries name).length
  /-- How requests for different types are interleaved does not matter. -/
  interleaved : ∀ qs', (∀ name, hashesFor name qs = hashesFor name qs') →
    (∀ name, repliesFor name qs = repliesFor name qs') ∧ (after qs).untimed = (after qs').untimed

theorem traced {qs : List Request}
    (hroom : ∀ name, ((after qs).entries name).length < UInt32.size) : Traced qs where
  hashes name hblank := by rw [hashes_after, historyOf, hblank, if_neg Bool.false_ne_true]
  versions name i e he := by
    have hi : i < ((after qs).entries name).length := (List.getElem?_eq_some_iff.mp he).1
    have hversion := (sound_after qs).numbered he
    refine ⟨(sound_after qs).owned (List.mem_of_getElem? he), ?_⟩
    rw [hversion, UInt32.toNat_ofNat_of_lt' (hi.trans (hroom name))]
  digests := intact_after qs
  blank name hblank := by
    rw [← (sound_after qs).entries_eq_nil_iff, ← List.map_eq_nil_iff, hashes_after, historyOf,
      if_pos hblank]
  refused before q _ _ _ _ hcall hblank := serve_of_blank hcall hblank (after before)
  recorded before q behind name hash hqs hcall hblank := by
    obtain ⟨now, r', v, hrecorded, hserve⟩ := serve_of_not_blank hcall hblank (after before)
    have hafter : after (before ++ [q]) = r' := by rw [after_concat, hserve]
    -- There was room for this version, since the history it belongs to only grows.
    have hle := (after_keeps_entries (before ++ [q]) behind name).length_le
    rw [List.append_assoc, List.singleton_append, ← hqs, hafter] at hle
    have hpos := List.length_pos_iff.mpr hrecorded.entries_ne_nil
    have hlt := hroom name
    refine ⟨v, by rw [hserve, hafter], ?_⟩
    rw [hrecorded.version (sound_after before), hafter, UInt32.toNat_ofNat_of_lt' (by omega)]
    omega
  interleaved qs' h :=
    ⟨fun name => by rw [repliesFor_eq, repliesFor_eq, h], untimed_after h⟩

/-- A shape that is recorded again, given up and taken up again, between other requests. -/
def requests : List Request :=
  [.record .epoch "A" "B-X", .record .epoch "A" "B-X", .query (.check "A" "B-Y"),
    .record .epoch " " "B-X", .record .epoch "A" "", .query (.versions "A"),
    .record .epoch "C" "B-X", .record .epoch "A" "B-X"]

theorem traced_requests :
    (∀ name, ((after requests).entries name).length < UInt32.size) ∧ Traced requests := by
  have hroom (name : String) : ((after requests).entries name).length < UInt32.size :=
    (length_entries_after_le name requests).trans_lt (by decide)
  exact ⟨hroom, traced hroom⟩

end Registry

end ShapeLedger
