import ShapeLedger.Proofs.ReadBack
import ShapeLedger.Shape.Segments

/-!
What cutting leaves whole. A piece of a text is never cut if none of its bars
stands at depth zero, and it can be followed by a bar if it ends at depth zero
too. So the pieces between two bars are found again, whatever parentheses and
bars they hold inside, and a member is found again in its segment if its name
has no dash.
-/

namespace ShapeLedger

/-- The segment that shows a member. -/
def MemberShape.segment (m : MemberShape) : String := m.typeText ++ "-" ++ m.name

namespace Shape

open Text

/-- The depth behind `s` if the depth before it is `depth`. -/
def depthBehind (depth : Nat) (s : List Char) : Nat := s.foldl depthAfter depth

@[simp] theorem depthBehind_nil (depth : Nat) : depthBehind depth [] = depth := rfl

@[simp] theorem depthBehind_cons (depth : Nat) (c : Char) (s : List Char) :
    depthBehind depth (c :: s) = depthBehind (depthAfter depth c) s := rfl

@[simp] theorem depthBehind_append (depth : Nat) (s t : List Char) :
    depthBehind depth (s ++ t) = depthBehind (depthBehind depth s) t :=
  List.foldl_append

/-- With `depth` before it, no bar of `s` stands at depth zero. -/
def Uncut (depth : Nat) (s : List Char) : Prop :=
  ∀ before behind, s = before ++ '|' :: behind → depthBehind depth before ≠ 0

@[simp] theorem uncut_nil (depth : Nat) : Uncut depth [] := by
  simp [Uncut]

@[simp] theorem uncut_cons {depth : Nat} {c : Char} {s : List Char} :
    Uncut depth (c :: s) ↔ ¬ (c = '|' ∧ depth = 0) ∧ Uncut (depthAfter depth c) s := by
  constructor
  · intro h
    refine ⟨fun ⟨hc, hdepth⟩ => h [] s (by rw [hc]; rfl) hdepth, fun before behind hs => ?_⟩
    exact h (c :: before) behind (by rw [hs]; rfl)
  · rintro ⟨hfirst, hs⟩ before behind heq
    cases before with
    | nil =>
      obtain ⟨rfl, rfl⟩ := List.cons.inj heq
      exact fun hdepth => hfirst ⟨rfl, hdepth⟩
    | cons b before =>
      obtain ⟨rfl, rfl⟩ := List.cons.inj heq
      exact hs before behind rfl

theorem uncut_append {depth : Nat} {s t : List Char} :
    Uncut depth (s ++ t) ↔ Uncut depth s ∧ Uncut (depthBehind depth s) t := by
  induction s generalizing depth with
  | nil => simp
  | cons c s ih => simp [ih, and_assoc]

theorem cut_append {depth : Nat} {s : List Char} (h : Uncut depth s) (t : List Char) :
    cut depth (s ++ t) = (cut (depthBehind depth s) t).modifyHead (s ++ ·) := by
  induction s generalizing depth with
  | nil =>
    have hid : (fun x : List Char => [] ++ x) = id := rfl
    rw [List.nil_append, hid, List.modifyHead_id, depthBehind_nil, id]
  | cons c s ih =>
    obtain ⟨hfirst, hs⟩ := uncut_cons.mp h
    rw [List.cons_append, cut, if_neg hfirst, ih hs, List.modifyHead_modifyHead,
      depthBehind_cons]
    rfl

theorem cut_of_uncut {depth : Nat} {s : List Char} (h : Uncut depth s) : cut depth s = [s] := by
  have := cut_append h []
  simpa [cut] using this

/-- Pieces with bars between them are found again; the last one may leave
parentheses open. -/
theorem cut_intercalate {ss : List (List Char)} (hne : ss ≠ []) (huncut : ∀ s ∈ ss, Uncut 0 s)
    (hlevel : ∀ s ∈ ss.dropLast, depthBehind 0 s = 0) : cut 0 (['|'].intercalate ss) = ss := by
  induction ss with
  | nil => exact absurd rfl hne
  | cons s ss ih =>
    have hs := huncut s List.mem_cons_self
    cases ss with
    | nil => simpa using cut_of_uncut hs
    | cons s' ss =>
      have hzero : depthBehind 0 s = 0 := hlevel s (by simp)
      have htail := ih (List.cons_ne_nil _ _) (fun x hx => huncut x (List.mem_cons_of_mem _ hx))
        fun x hx => hlevel x (by simpa using Or.inr hx)
      rw [List.intercalate_cons_cons, List.append_assoc, cut_append hs, hzero,
        List.singleton_append, cut, if_pos ⟨rfl, rfl⟩, htail]
      simp

/-! ### Pieces that leave the depth as it is -/

/-- With `depth` before it, `s` is not cut and has the same depth behind it. -/
structure Closed (depth : Nat) (s : List Char) : Prop where
  uncut : Uncut depth s
  level : depthBehind depth s = depth

theorem closed_nil (depth : Nat) : Closed depth [] := ⟨uncut_nil _, rfl⟩

theorem Closed.append {depth : Nat} {s t : List Char} (hs : Closed depth s)
    (ht : Closed depth t) : Closed depth (s ++ t) := by
  refine ⟨uncut_append.mpr ⟨hs.uncut, ?_⟩, ?_⟩
  · rw [hs.level]
    exact ht.uncut
  · rw [depthBehind_append, hs.level, ht.level]

/-- The characters that open and close a depth, and the one that separates. -/
def marks : List Char := ['(', ')', '|']

theorem closed_of_not_mem_marks (depth : Nat) {s : List Char} (h : ∀ c ∈ s, c ∉ marks) :
    Closed depth s := by
  induction s with
  | nil => exact closed_nil depth
  | cons c s ih =>
    have hc : c ≠ '(' ∧ c ≠ ')' ∧ c ≠ '|' := by
      simpa [marks] using h c List.mem_cons_self
    obtain ⟨huncut, hlevel⟩ := ih fun x hx => h x (List.mem_cons_of_mem _ hx)
    have hdepth : depthAfter depth c = depth := by
      rw [depthAfter, if_neg hc.1, if_neg hc.2.1]
    refine ⟨uncut_cons.mpr ⟨fun hbar => hc.2.2 hbar.1, ?_⟩, ?_⟩
    · rw [hdepth]
      exact huncut
    · rw [depthBehind_cons, hdepth, hlevel]

theorem closed_of_avoids {s : String} (h : Avoids marks s) (depth : Nat) :
    Closed depth s.toList :=
  closed_of_not_mem_marks depth h

theorem Closed.parentheses {depth : Nat} {s : List Char} (h : Closed (depth + 1) s) :
    Closed depth ('(' :: (s ++ [')'])) := by
  have hopen : depthAfter depth '(' = depth + 1 := by simp [depthAfter]
  have hclose : depthAfter (depth + 1) ')' = depth := by simp [depthAfter]
  refine ⟨uncut_cons.mpr ⟨by simp, ?_⟩, ?_⟩
  · rw [hopen, uncut_append, h.level]
    exact ⟨h.uncut, by simp⟩
  · rw [depthBehind_cons, hopen, depthBehind_append, h.level, depthBehind_cons, hclose,
      depthBehind_nil]

/-- Inside parentheses bars do no harm. -/
theorem closed_intercalate {depth : Nat} {ss : List (List Char)}
    (h : ∀ s ∈ ss, Closed (depth + 1) s) : Closed (depth + 1) (['|'].intercalate ss) := by
  induction ss with
  | nil => exact closed_nil _
  | cons s ss ih =>
    have hs := h s List.mem_cons_self
    have hss := ih fun x hx => h x (List.mem_cons_of_mem _ hx)
    cases ss with
    | nil => simpa using hs
    | cons s' ss =>
      have hbar : Closed (depth + 1) ['|'] := ⟨by simp, by simp [depthAfter]⟩
      rw [List.intercalate_cons_cons]
      exact (hs.append hbar).append hss

/-! ### Members in segments -/

theorem splitAtLastDash?_eq_none {s : List Char} (h : '-' ∉ s) : splitAtLastDash? s = none := by
  induction s with
  | nil => rfl
  | cons c s ih =>
    rw [List.mem_cons, not_or] at h
    rw [splitAtLastDash?, ih h.2]
    exact if_neg (Ne.symm h.1)

theorem splitAtLastDash?_append (s : List Char) {t : List Char} (h : '-' ∉ t) :
    splitAtLastDash? (s ++ '-' :: t) = some (s, t) := by
  induction s with
  | nil => simp [splitAtLastDash?, splitAtLastDash?_eq_none h]
  | cons c s ih => rw [List.cons_append, splitAtLastDash?, ih]

theorem ofSegment_segment {m : MemberShape} (h : Avoids ['-'] m.name) :
    ofSegment m.segment = m := by
  have hname : '-' ∉ m.name.toList := fun hmem => h '-' hmem List.mem_cons_self
  have hchars : m.segment.toList = m.typeText.toList ++ '-' :: m.name.toList := by
    simp [MemberShape.segment]
  rw [ofSegment, hchars, splitAtLastDash?_append _ hname]
  simp

/-- As `cut_intercalate`, for texts. -/
theorem segments_intercalate_of_uncut {ss : List String} (htext : "|".intercalate ss ≠ "")
    (huncut : ∀ s ∈ ss, Uncut 0 s.toList) (hlevel : ∀ s ∈ ss.dropLast, depthBehind 0 s.toList = 0) :
    segments ("|".intercalate ss) = ss := by
  have hne : ss ≠ [] := by
    rintro rfl
    exact htext String.intercalate_nil
  have hcut : cut 0 (['|'].intercalate (ss.map String.toList)) = ss.map String.toList := by
    refine cut_intercalate (by simpa using hne) (fun x hx => ?_) fun x hx => ?_
    · obtain ⟨y, hy, rfl⟩ := List.mem_map.mp hx
      exact huncut y hy
    · rw [← List.map_dropLast] at hx
      obtain ⟨y, hy, rfl⟩ := List.mem_map.mp hx
      exact hlevel y hy
  have hchars : ("|".intercalate ss).toList = ['|'].intercalate (ss.map String.toList) := by
    simp
  rw [segments, if_neg (by simpa using htext), hchars, hcut, List.map_map]
  simp [Function.comp_def]

theorem segments_intercalate {ss : List String} (hne : ∀ s ∈ ss, s ≠ "")
    (h : ∀ s ∈ ss, Closed 0 s.toList) : segments ("|".intercalate ss) = ss := by
  cases ss with
  | nil => rfl
  | cons s ss =>
    have htext : "|".intercalate (s :: ss) ≠ "" := by
      cases ss with
      | nil => simpa using hne s List.mem_cons_self
      | cons s' ss => simp [String.intercalate_cons_cons]
    exact segments_intercalate_of_uncut htext (fun x hx => (h x hx).uncut)
      fun x hx => (h x (List.dropLast_subset _ hx)).level

/-- Members are found again in the text that shows them. -/
theorem members_intercalate {ms : List MemberShape}
    (hclosed : ∀ m ∈ ms, Closed 0 m.segment.toList) (hnames : ∀ m ∈ ms, Avoids ['-'] m.name) :
    members ("|".intercalate (ms.map MemberShape.segment)) = ms := by
  rw [members, segments_intercalate, List.map_map]
  · exact (List.map_congr_left fun m hm => ofSegment_segment (hnames m hm)).trans (List.map_id ms)
  · intro s hs
    obtain ⟨m, -, rfl⟩ := List.mem_map.mp hs
    simp [MemberShape.segment]
  · intro s hs
    obtain ⟨m, hm, rfl⟩ := List.mem_map.mp hs
    exact hclosed m hm

end Shape

end ShapeLedger
