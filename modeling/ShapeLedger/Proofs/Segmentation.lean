import ShapeLedger.Proofs.Cutting

/-!
The segments of a text are canonical. A text that is cut somewhere is cut at its first bar at depth
zero, with a closed piece before it, and what stands behind that bar is cut on its own. So the
segments are the only pieces with bars between them of which none is cut further and all but the
last end at depth zero. Their members show the text again exactly if each segment has a dash.
-/

namespace ShapeLedger

namespace Shape

/-- The pieces of a text between its bars at depth zero. Each piece is counted from depth zero on,
and the last one may leave parentheses open. -/
structure CutsInto (text : String) (ss : List String) : Prop where
  nonempty : ss ≠ []
  joined : "|".intercalate ss = text
  uncut : ∀ s ∈ ss, Uncut 0 s.toList
  level : ∀ s ∈ ss.dropLast, depthBehind 0 s.toList = 0

/-! ### Cutting at the first bar -/

/-- What can be cut has a first bar at depth zero. -/
theorem exists_firstBar {depth : Nat} {s : List Char} (h : ¬ Uncut depth s) :
    ∃ before behind, s = before ++ '|' :: behind ∧ Uncut depth before ∧
      depthBehind depth before = 0 := by
  induction s generalizing depth with
  | nil => exact absurd (uncut_nil depth) h
  | cons c s ih =>
    by_cases hfirst : c = '|' ∧ depth = 0
    · obtain ⟨rfl, rfl⟩ := hfirst
      exact ⟨[], s, rfl, uncut_nil 0, rfl⟩
    · have hrest : ¬ Uncut (depthAfter depth c) s := fun hs => h (uncut_cons.mpr ⟨hfirst, hs⟩)
      obtain ⟨before, behind, rfl, huncut, hlevel⟩ := ih hrest
      exact ⟨c :: before, behind, rfl, uncut_cons.mpr ⟨hfirst, huncut⟩, hlevel⟩

theorem cut_of_firstBar {before : List Char} (h : Closed 0 before) (behind : List Char) :
    cut 0 (before ++ '|' :: behind) = before :: cut 0 behind := by
  rw [cut_append h.uncut, h.level, cut, if_pos ⟨rfl, rfl⟩, List.modifyHead_cons, List.append_nil]

/-- A text is in one piece, or has a closed piece before its first bar at depth zero. -/
theorem cutInduction {motive : List Char → Prop} (whole : ∀ s, Uncut 0 s → motive s)
    (bar : ∀ before behind, Closed 0 before → motive behind → motive (before ++ '|' :: behind))
    (s : List Char) : motive s := by
  -- What stands behind the first bar is shorter, so the recursion ends.
  by_cases h : Uncut 0 s
  · exact whole s h
  · obtain ⟨before, behind, hs, huncut, hlevel⟩ := exists_firstBar h
    have hshorter : behind.length < s.length := by
      rw [hs, List.length_append, List.length_cons]
      omega
    rw [hs]
    exact bar before behind ⟨huncut, hlevel⟩ (cutInduction whole bar behind)
termination_by s.length

theorem cut_ne_nil (s : List Char) : cut 0 s ≠ [] := by
  induction s using cutInduction with
  | whole s h => simp [cut_of_uncut h]
  | bar before behind h _ => simp [cut_of_firstBar h]

/-- Nothing is lost by cutting. -/
theorem intercalate_cut (s : List Char) : ['|'].intercalate (cut 0 s) = s := by
  induction s using cutInduction with
  | whole s h => simp [cut_of_uncut h]
  | bar before behind h ih =>
    rw [cut_of_firstBar h, List.intercalate_cons_of_ne_nil (cut_ne_nil behind), ih]
    simp

/-- No piece is cut further. -/
theorem uncut_of_mem_cut (s : List Char) : ∀ x ∈ cut 0 s, Uncut 0 x := by
  induction s using cutInduction with
  | whole s h => simpa [cut_of_uncut h] using h
  | bar before behind h ih =>
    rw [cut_of_firstBar h]
    exact List.forall_mem_cons.mpr ⟨h.uncut, ih⟩

/-- All pieces but the last close what they open. -/
theorem level_of_mem_dropLast_cut (s : List Char) :
    ∀ x ∈ (cut 0 s).dropLast, depthBehind 0 x = 0 := by
  induction s using cutInduction with
  | whole s h => simp [cut_of_uncut h]
  | bar before behind h ih =>
    rw [cut_of_firstBar h, List.dropLast_cons_of_ne_nil (cut_ne_nil behind)]
    exact List.forall_mem_cons.mpr ⟨h.level, ih⟩

/-! ### The only pieces -/

theorem cutsInto_segments {text : String} (h : text ≠ "") : CutsInto text (segments text) := by
  have hsegments : segments text = (cut 0 text.toList).map String.ofList := by
    rw [segments, if_neg (by simpa using h)]
  rw [hsegments]
  refine ⟨by simpa using cut_ne_nil text.toList, ?_, fun s hs => ?_, fun s hs => ?_⟩
  · have hchars : ((cut 0 text.toList).map String.ofList).map String.toList =
        cut 0 text.toList := by
      simp [Function.comp_def]
    apply String.toList_injective
    rw [String.toList_intercalate, hchars]
    exact intercalate_cut text.toList
  · obtain ⟨x, hx, rfl⟩ := List.mem_map.mp hs
    rw [String.toList_ofList]
    exact uncut_of_mem_cut _ x hx
  · rw [← List.map_dropLast] at hs
    obtain ⟨x, hx, rfl⟩ := List.mem_map.mp hs
    rw [String.toList_ofList]
    exact level_of_mem_dropLast_cut _ x hx

theorem segments_eq_iff_cutsInto {text : String} (h : text ≠ "") {ss : List String} :
    segments text = ss ↔ CutsInto text ss := by
  constructor
  · rintro rfl
    exact cutsInto_segments h
  · rintro ⟨hne, rfl, huncut, hlevel⟩
    exact segments_intercalate_of_uncut h huncut hlevel

/-! ### Members shown again -/

theorem splitAtLastDash?_eq_some {s before behind : List Char}
    (h : splitAtLastDash? s = some (before, behind)) : s = before ++ '-' :: behind := by
  induction s generalizing before with
  | nil => cases h
  | cons c s ih =>
    rw [splitAtLastDash?] at h
    split at h
    · rename_i before' behind' hsplit
      cases h
      rw [ih hsplit, List.cons_append]
    · split at h
      · rename_i hdash
        cases h
        rw [hdash, List.nil_append]
      · cases h

theorem not_mem_of_splitAtLastDash?_eq_none {s : List Char} (h : splitAtLastDash? s = none) :
    '-' ∉ s := by
  induction s with
  | nil => exact List.not_mem_nil
  | cons c s ih =>
    rw [splitAtLastDash?] at h
    split at h
    · cases h
    · split at h
      · cases h
      · rename_i hsplit hdash
        rw [List.mem_cons, not_or]
        exact ⟨Ne.symm hdash, ih hsplit⟩

theorem segment_ofSegment_of_mem {s : String} (h : '-' ∈ s.toList) : (ofSegment s).segment = s := by
  rw [ofSegment]
  cases hsplit : splitAtLastDash? s.toList with
  | none => exact absurd h (not_mem_of_splitAtLastDash?_eq_none hsplit)
  | some parts =>
    obtain ⟨before, behind⟩ := parts
    apply String.toList_injective
    rw [splitAtLastDash?_eq_some hsplit]
    simp [MemberShape.segment]

/-- A segment without a dash gets one behind it. -/
theorem segment_ofSegment_of_not_mem {s : String} (h : '-' ∉ s.toList) :
    (ofSegment s).segment = s ++ "-" := by
  rw [ofSegment, splitAtLastDash?_eq_none h]
  simp [MemberShape.segment]

theorem mem_segment (m : MemberShape) : '-' ∈ m.segment.toList := by
  simp [MemberShape.segment]

/-- A dash at the end of a segment changes neither where it is cut nor the depth behind it. -/
theorem uncut_segment_ofSegment {s : String} :
    Uncut 0 (ofSegment s).segment.toList ↔ Uncut 0 s.toList := by
  by_cases h : '-' ∈ s.toList
  · rw [segment_ofSegment_of_mem h]
  · simp [segment_ofSegment_of_not_mem h, uncut_append]

theorem depthBehind_segment_ofSegment (s : String) :
    depthBehind 0 (ofSegment s).segment.toList = depthBehind 0 s.toList := by
  by_cases h : '-' ∈ s.toList
  · rw [segment_ofSegment_of_mem h]
  · simp [segment_ofSegment_of_not_mem h, depthAfter]

/-- Texts of members are pieces wherever the segments that they were read from are. -/
theorem CutsInto.map_ofSegment {text text' : String} {ss : List String} (h : CutsInto text ss)
    (hjoined : "|".intercalate (ss.map fun s => (ofSegment s).segment) = text') :
    CutsInto text' (ss.map fun s => (ofSegment s).segment) := by
  refine ⟨by simpa using h.nonempty, hjoined, fun x hx => ?_, fun x hx => ?_⟩
  · obtain ⟨s, hs, rfl⟩ := List.mem_map.mp hx
    exact uncut_segment_ofSegment.mpr (h.uncut s hs)
  · rw [← List.map_dropLast] at hx
    obtain ⟨s, hs, rfl⟩ := List.mem_map.mp hx
    rw [depthBehind_segment_ofSegment]
    exact h.level s hs

theorem map_segment_members (text : String) : (members text).map MemberShape.segment =
    (segments text).map fun s => (ofSegment s).segment := by
  rw [members, List.map_map]
  rfl

/-- The segments of a text are the only pieces that it can be cut into, and it is shown again by
its members exactly if every segment has a dash. -/
theorem segments_canonical {text : String} (h : text ≠ "") :
    (∀ ss, segments text = ss ↔ CutsInto text ss) ∧
      ((∀ s ∈ segments text, '-' ∈ s.toList) ↔
        "|".intercalate ((members text).map MemberShape.segment) = text) := by
  refine ⟨fun ss => segments_eq_iff_cutsInto h, fun hdash => ?_, fun hjoined s hs => ?_⟩
  · have hsame : (segments text).map (fun s => (ofSegment s).segment) = segments text :=
      (List.map_congr_left fun s hs => segment_ofSegment_of_mem (hdash s hs)).trans
        (List.map_id' _)
    rw [map_segment_members, hsame]
    exact (cutsInto_segments h).joined
  · -- The texts of the members are pieces too, so each is the segment that it was read from.
    rw [map_segment_members] at hjoined
    have hpieces := (cutsInto_segments h).map_ofSegment hjoined
    have hsame := (segments_eq_iff_cutsInto h).mpr hpieces
    have hs' : (ofSegment s).segment = s :=
      List.map_eq_map_iff.mp (hsame.symm.trans (List.map_id' _).symm) s hs
    rw [← hs']
    exact mem_segment _

/-- A text with a parenthesis that closes nothing and one that is never closed. -/
def lopsided : String := ")é-X|é(B-Y|C-Z)-W|(D-V|E"

theorem segments_lopsided : lopsided ≠ "" ∧
    CutsInto lopsided [")é-X", "é(B-Y|C-Z)-W", "(D-V|E"] ∧
      members lopsided = [⟨"X", ")é"⟩, ⟨"W", "é(B-Y|C-Z)"⟩, ⟨"V|E", "(D"⟩] ∧
        "|".intercalate ((members lopsided).map MemberShape.segment) = lopsided := by
  have hne : lopsided ≠ "" := by decide
  have hsegments : segments lopsided = [")é-X", "é(B-Y|C-Z)-W", "(D-V|E"] := by decide
  have hdash : ∀ s ∈ segments lopsided, '-' ∈ s.toList := by
    rw [hsegments]
    decide
  refine ⟨hne, ((segments_canonical hne).1 _).mp hsegments, ?_,
    (segments_canonical hne).2.mp hdash⟩
  rw [members, hsegments]
  decide

end Shape

end ShapeLedger
