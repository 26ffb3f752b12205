import ShapeLedger.Proofs.JsonReadBack

/-!
How deeply JSON text is nested. A value is as deep as the longest chain of
arrays and objects in it. On its text this is counted without reading it: a
bracket or brace outside of texts opens or closes one of them, and everything
between two quotes is passed over, escaped quotes included. The counts agree on
every printed value.
-/

namespace ShapeLedger.Json

mutual

/-- How many arrays and objects stand in each other. -/
def depth {ν σ : Type} : Json ν σ → Nat
  | .null => 0
  | .bool _ => 0
  | .number _ => 0
  | .text _ => 0
  | .array vs => depthItems vs + 1
  | .object fs => depthFields fs + 1

def depthItems {ν σ : Type} : List (Json ν σ) → Nat
  | [] => 0
  | v :: vs => max (depth v) (depthItems vs)

def depthFields {ν σ : Type} : List (σ × Json ν σ) → Nat
  | [] => 0
  | (_, v) :: fs => max (depth v) (depthFields fs)

end

theorem depthItems_le_iff {ν σ : Type} {vs : List (Json ν σ)} {n : Nat} :
    depthItems vs ≤ n ↔ ∀ v ∈ vs, v.depth ≤ n := by
  induction vs with
  | nil => simp [depthItems]
  | cons v vs ih => rw [depthItems, Nat.max_le, ih, List.forall_mem_cons]

/-! ### Counting on text -/

/-- Where a character of JSON text stands. -/
inductive Place where
  | outside
  | inside
  /-- Inside of a text, behind a backslash. -/
  | escaped

/-- The most arrays and objects that are open at once from here to the end of a text, if `n` are
open here. -/
def mostOpen : Place → Nat → List Char → Nat
  | _, n, [] => n
  | .escaped, n, _ :: s => mostOpen .inside n s
  | .inside, n, c :: s =>
    if c = '"' then mostOpen .outside n s
    else if c = '\\' then mostOpen .escaped n s
    else mostOpen .inside n s
  | .outside, n, c :: s =>
    if c = '"' then mostOpen .inside n s
    else if c = '[' ∨ c = '{' then mostOpen .outside (n + 1) s
    else if c = ']' ∨ c = '}' then max n (mostOpen .outside (n - 1) s)
    else mostOpen .outside n s

/-- The most arrays and objects that are open at once in a JSON text. -/
def openAtOnce (s : String) : Nat := mostOpen .outside 0 s.toList

/-- The characters that count outside of texts. -/
def marks : List Char := ['"', '[', ']', '{', '}']

theorem le_mostOpen (place : Place) (n : Nat) (s : List Char) : n ≤ mostOpen place n s := by
  induction s generalizing place n with
  | nil => cases place <;> exact Nat.le_refl n
  | cons c s ih =>
    cases place with
    | escaped => exact ih .inside n
    | inside =>
      rw [mostOpen]
      split_ifs
      · exact ih .outside n
      · exact ih .escaped n
      · exact ih .inside n
    | outside =>
      rw [mostOpen]
      split_ifs
      · exact ih .inside n
      · exact Nat.le_of_succ_le (ih .outside (n + 1))
      · exact Nat.le_max_left _ _
      · exact ih .outside n

theorem mostOpen_bracket (n : Nat) (s : List Char) :
    mostOpen .outside n ('[' :: s) = mostOpen .outside (n + 1) s := rfl

theorem mostOpen_brace (n : Nat) (s : List Char) :
    mostOpen .outside n ('{' :: s) = mostOpen .outside (n + 1) s := rfl

theorem mostOpen_comma (n : Nat) (s : List Char) :
    mostOpen .outside n (',' :: s) = mostOpen .outside n s := rfl

theorem mostOpen_append_of_plain {s : List Char} (hs : ∀ c ∈ s, c ∉ marks) (n : Nat)
    (rest : List Char) : mostOpen .outside n (s ++ rest) = mostOpen .outside n rest := by
  induction s with
  | nil => rfl
  | cons c s ih =>
    obtain ⟨hc, hs⟩ := List.forall_mem_cons.mp hs
    simp only [marks, List.mem_cons, List.not_mem_nil, or_false, not_or] at hc
    rw [List.cons_append, mostOpen, if_neg hc.1, if_neg (by tauto), if_neg (by tauto), ih hs]

theorem not_mem_marks_of_isSpace {c : Char} (h : isSpace c = true) : c ∉ marks := by
  simp only [isSpace, Bool.or_eq_true, decide_eq_true_eq] at h
  rcases h with ((rfl | rfl) | rfl) | rfl <;> decide

theorem not_mem_marks_of_isDigit {c : Char} (h : c.isDigit = true) : c ∉ marks := by
  intro hc
  simp only [marks, List.mem_cons, List.not_mem_nil, or_false] at hc
  rcases hc with rfl | rfl | rfl | rfl | rfl <;> cases h

/-- Escaped characters leave the scan inside of the text. -/
theorem mostOpen_escape (n : Nat) (c : Char) (rest : List Char) :
    mostOpen .inside n (escape c ++ rest) = mostOpen .inside n rest := by
  -- A character behind a backslash is passed over whatever it is, a quote too.
  have hletter (e : Char) (s : List Char) :
      mostOpen .inside n ('\\' :: e :: s) = mostOpen .inside n s := rfl
  have hplain {d : Char} (hd : d ≠ '"' ∧ d ≠ '\\') (s : List Char) :
      mostOpen .inside n (d :: s) = mostOpen .inside n s := by
    rw [mostOpen, if_neg hd.1, if_neg hd.2]
  rw [escape]
  split_ifs with hquote hslash hback hfeed hline hreturn htab hcontrol
  · exact hletter '"' rest
  · exact hletter '\\' rest
  · exact hletter 'b' rest
  · exact hletter 'f' rest
  · exact hletter 'n' rest
  · exact hletter 'r' rest
  · exact hletter 't' rest
  · have hdigit {m : Nat} (hm : m < 16) : Text.Hex.digit m ≠ '"' ∧ Text.Hex.digit m ≠ '\\' := by
      have hall : ∀ k : Fin 16, Text.Hex.digit k ≠ '"' ∧ Text.Hex.digit k ≠ '\\' := by decide
      exact hall ⟨m, hm⟩
    have hhigh := hdigit (show c.toNat / 16 < 16 by omega)
    have hlow := hdigit (show c.toNat % 16 < 16 by omega)
    simp only [List.cons_append, List.nil_append]
    rw [hletter, hplain (by decide), hplain (by decide), hplain hhigh, hplain hlow]
  · exact hplain ⟨hquote, hslash⟩ rest

theorem mostOpen_quote (n : Nat) (s : String) (rest : List Char) :
    mostOpen .outside n (quote s ++ rest) = mostOpen .outside n rest := by
  have hinside (cs : List Char) :
      mostOpen .inside n (cs.flatMap escape ++ '"' :: rest) = mostOpen .outside n rest := by
    induction cs with
    | nil => simp [mostOpen]
    | cons c cs ih => rw [List.flatMap_cons, List.append_assoc, mostOpen_escape, ih]
  rw [quote, List.cons_append, List.append_assoc, List.singleton_append, mostOpen, if_pos rfl,
    hinside]

/-! ### Printed values -/

section

variable {l : Layout} (hl : l.Spaced)
include hl

theorem mostOpen_lineBreak (level n : Nat) (rest : List Char) :
    mostOpen .outside n (l.lineBreak level ++ rest) = mostOpen .outside n rest :=
  mostOpen_append_of_plain (fun c hc => not_mem_marks_of_isSpace (hl.lineBreak level c hc)) n rest

theorem mostOpen_colon (n : Nat) (rest : List Char) :
    mostOpen .outside n (l.colon ++ rest) = mostOpen .outside n rest := by
  obtain ⟨s, hcolon, hspace⟩ := hl.colon
  refine mostOpen_append_of_plain ?_ n rest
  rw [hcolon]
  exact List.forall_mem_cons.mpr ⟨by decide, fun c hc => not_mem_marks_of_isSpace (hspace c hc)⟩

mutual

/-- A printed value opens as many arrays and objects as it is deep, and closes them all. -/
theorem mostOpen_print (level n : Nat) (v : Plain) (rest : List Char) :
    mostOpen .outside n (print l level v ++ rest) =
      max (n + v.depth) (mostOpen .outside n rest) := by
  have hle := le_mostOpen .outside n rest
  have hscalar {s : List Char} (hs : ∀ c ∈ s, c ∉ marks) :
      mostOpen .outside n (s ++ rest) = max (n + 0) (mostOpen .outside n rest) := by
    rw [mostOpen_append_of_plain hs, Nat.add_zero, Nat.max_eq_right hle]
  cases v with
  | null =>
    have hnull : ∀ c ∈ "null".toList, c ∉ marks := by simp [marks]
    exact hscalar hnull
  | bool b =>
    have hbool : ∀ c ∈ if b then "true".toList else "false".toList, c ∉ marks := by
      cases b <;> simp [marks]
    exact hscalar hbool
  | number k => exact hscalar fun c hc =>
      not_mem_marks_of_isDigit (Nat.isDigit_of_mem_toDigits (by decide) (by decide) hc)
  | text s => rw [print, mostOpen_quote, depth, Nat.add_zero, Nat.max_eq_right hle]
  | array vs =>
    cases vs with
    | nil => rfl
    | cons v vs =>
      rw [print, List.cons_append, List.append_assoc, List.append_assoc, mostOpen_bracket,
        mostOpen_lineBreak hl, mostOpen_print (level + 1) (n + 1) v, mostOpen_printItems, depth,
        depthItems]
      omega
  | object fs =>
    cases fs with
    | nil => rfl
    | cons f fs =>
      obtain ⟨key, v⟩ := f
      rw [print, List.cons_append, List.append_assoc, List.append_assoc, List.append_assoc,
        List.append_assoc, mostOpen_brace, mostOpen_lineBreak hl, mostOpen_quote, mostOpen_colon hl,
        mostOpen_print (level + 1) (n + 1) v, mostOpen_printFields, depth, depthFields]
      omega

/-- The items that are left of an array are printed inside of it. -/
theorem mostOpen_printItems (level n : Nat) (vs : List Plain) (rest : List Char) :
    mostOpen .outside (n + 1) (printItems l level vs ++ rest) =
      max (n + 1 + depthItems vs) (mostOpen .outside n rest) := by
  cases vs with
  | nil =>
    rw [printItems, List.append_assoc, mostOpen_lineBreak hl]
    rfl
  | cons v vs =>
    rw [printItems, List.cons_append, List.append_assoc, List.append_assoc, mostOpen_comma,
      mostOpen_lineBreak hl, mostOpen_print (level + 1) (n + 1) v, mostOpen_printItems, depthItems]
    omega

theorem mostOpen_printFields (level n : Nat) (fs : List (String × Plain)) (rest : List Char) :
    mostOpen .outside (n + 1) (printFields l level fs ++ rest) =
      max (n + 1 + depthFields fs) (mostOpen .outside n rest) := by
  cases fs with
  | nil =>
    rw [printFields, List.append_assoc, mostOpen_lineBreak hl]
    rfl
  | cons f fs =>
    obtain ⟨key, v⟩ := f
    rw [printFields, List.cons_append, List.append_assoc, List.append_assoc, List.append_assoc,
      List.append_assoc, mostOpen_comma, mostOpen_lineBreak hl, mostOpen_quote, mostOpen_colon hl,
      mostOpen_print (level + 1) (n + 1) v, mostOpen_printFields, depthFields]
    omega

end

end

theorem openAtOnce_pretty (v : Plain) : openAtOnce v.pretty = v.depth := by
  have hprint := mostOpen_print spaced_pretty 0 0 v []
  rw [List.append_nil, Nat.zero_add] at hprint
  rw [openAtOnce, Plain.pretty, String.toList_ofList, hprint]
  exact Nat.max_zero _

end ShapeLedger.Json
