import ShapeLedger.FileTree.Change

/-!
What a change does to what can be seen. Making a directory and writing a file
keep all directories that there are, so every route that could be followed
leads to the same place as before. Below a directory the change is the one that
is made in the directory alone.
-/

namespace ShapeLedger.FileTree

/-! ### Entries -/

theorem lookup_cons (name : String) (t : FileTree) (entries : List (String × FileTree))
    (other : String) : ((name, t) :: entries).lookup other =
      if other = name then some t else entries.lookup other := by
  rw [List.lookup_cons]
  by_cases h : other = name
  · simp [h]
  · rw [beq_false_of_ne h, if_neg h]

theorem lookup_put (name : String) (t : FileTree) (entries : List (String × FileTree))
    (other : String) :
    (put name t entries).lookup other = if other = name then some t else entries.lookup other := by
  induction entries with
  | nil => rw [put, lookup_cons]
  | cons e entries ih =>
    obtain ⟨n, u⟩ := e
    rw [put]
    by_cases hn : n = name
    · rw [if_pos hn, lookup_cons, lookup_cons, hn]
      split <;> rfl
    · rw [if_neg hn, lookup_cons, lookup_cons, ih]
      by_cases h : other = n
      · rw [if_pos h, if_neg (h ▸ hn), if_pos h]
      · rw [if_neg h, if_neg h]

@[simp] theorem lookup_put_self (name : String) (t : FileTree)
    (entries : List (String × FileTree)) : (put name t entries).lookup name = some t := by
  rw [lookup_put, if_pos rfl]

theorem put_put (name : String) (t u : FileTree) (entries : List (String × FileTree)) :
    put name u (put name t entries) = put name u entries := by
  induction entries with
  | nil => simp [put]
  | cons e entries ih =>
    obtain ⟨n, v⟩ := e
    by_cases hn : n = name <;> simp [put, hn, ih]

theorem put_of_lookup {name : String} {t : FileTree} {entries : List (String × FileTree)}
    (h : entries.lookup name = some t) : put name t entries = entries := by
  induction entries with
  | nil => cases h
  | cons e entries ih =>
    obtain ⟨n, u⟩ := e
    rw [lookup_cons] at h
    by_cases hn : n = name
    · rw [if_pos hn.symm, Option.some.injEq] at h
      rw [put, if_pos hn, h]
    · rw [if_neg (Ne.symm hn)] at h
      rw [put, if_neg hn, ih h]

theorem map_fst_put (name : String) (t : FileTree) (entries : List (String × FileTree)) :
    (put name t entries).map Prod.fst =
      if name ∈ entries.map Prod.fst then entries.map Prod.fst
      else entries.map Prod.fst ++ [name] := by
  induction entries with
  | nil => rfl
  | cons e entries ih =>
    obtain ⟨n, u⟩ := e
    by_cases hn : n = name
    · simp [put, hn]
    · simp only [put, if_neg hn, List.map_cons, ih, List.mem_cons, Ne.symm hn, false_or]
      split <;> rfl

theorem mem_names_put {name : String} {t : FileTree} {entries : List (String × FileTree)}
    {other : String} : other ∈ (put name t entries).map Prod.fst ↔
      other = name ∨ other ∈ entries.map Prod.fst := by
  rw [map_fst_put]
  split
  · rename_i hname
    refine ⟨.inr, fun h => ?_⟩
    rcases h with rfl | h
    · exact hname
    · exact h
  · rw [List.mem_append, List.mem_singleton, or_comm]

/-- An entry is put where the one of its name was, or at the end. -/
theorem exists_put_eq (name : String) (entries : List (String × FileTree)) :
    ∃ before behind, entries = before ++ (entries.lookup name).toList.map (name, ·) ++ behind ∧
      ∀ t, put name t entries = before ++ (name, t) :: behind := by
  induction entries with
  | nil => exact ⟨[], [], rfl, fun t => rfl⟩
  | cons e entries ih =>
    obtain ⟨n, u⟩ := e
    by_cases hn : n = name
    · subst hn
      refine ⟨[], entries, ?_, fun t => by rw [put, if_pos rfl]; rfl⟩
      rw [lookup_cons, if_pos rfl]
      rfl
    · obtain ⟨before, behind, hentries, hput⟩ := ih
      refine ⟨(n, u) :: before, behind, ?_, fun t => by rw [put, if_neg hn, hput]; rfl⟩
      rw [lookup_cons, if_neg (Ne.symm hn), List.cons_append, List.cons_append, ← hentries]

/-- No change gives one name to two entries. -/
theorem nodup_put {entries : List (String × FileTree)} (h : (entries.map Prod.fst).Nodup)
    (name : String) (t : FileTree) : ((put name t entries).map Prod.fst).Nodup := by
  rw [map_fst_put]
  split
  · exact h
  · rename_i hname
    refine List.nodup_append.mpr ⟨h, List.pairwise_singleton _ _, fun a ha b hb => ?_⟩
    rw [List.mem_singleton.mp hb]
    rintro rfl
    exact hname ha

/-- The entries that have other names. -/
def others (name : String) (entries : List (String × FileTree)) : List (String × FileTree) :=
  entries.filter fun e => e.1 ≠ name

theorem mem_others {name : String} {entries : List (String × FileTree)} {e : String × FileTree} :
    e ∈ others name entries ↔ e ∈ entries ∧ e.1 ≠ name := by
  simp [others]

theorem others_of_forall_ne {name : String} {entries : List (String × FileTree)}
    (h : ∀ e ∈ entries, e.1 ≠ name) : others name entries = entries :=
  List.filter_eq_self.mpr fun e he => decide_eq_true (h e he)

/-- An entry that is put among others stands beside those with other names. -/
theorem put_perm {entries : List (String × FileTree)} (h : (entries.map Prod.fst).Nodup)
    (name : String) (t : FileTree) :
    (put name t entries).Perm ((name, t) :: others name entries) := by
  induction entries with
  | nil => exact .refl _
  | cons e entries ih =>
    obtain ⟨n, u⟩ := e
    rw [List.map_cons, List.nodup_cons] at h
    by_cases hn : n = name
    · subst hn
      have hothers : others n ((n, u) :: entries) = others n entries := by simp [others]
      have hrest : others n entries = entries :=
        others_of_forall_ne fun e he heq => h.1 (List.mem_map.mpr ⟨e, he, heq⟩)
      rw [put, if_pos rfl, hothers, hrest]
    · have hothers : others name ((n, u) :: entries) = (n, u) :: others name entries := by
        simp [others, hn]
      rw [put, if_neg hn, hothers]
      exact ((ih h.2).cons (n, u)).trans (.swap _ _ _)

theorem perm_of_lookup {entries : List (String × FileTree)} (h : (entries.map Prod.fst).Nodup)
    {name : String} {t : FileTree} (hname : entries.lookup name = some t) :
    entries.Perm ((name, t) :: others name entries) := by
  have hput := put_perm h name t
  rw [put_of_lookup hname] at hput
  exact hput

theorem others_of_lookup_eq_none {entries : List (String × FileTree)} {name : String}
    (h : entries.lookup name = none) : others name entries = entries := by
  refine others_of_forall_ne fun e he heq => ?_
  have hne := List.lookup_eq_none_iff.mp h e he
  rw [heq] at hne
  simp at hne

theorem mem_put {entries : List (String × FileTree)} (h : (entries.map Prod.fst).Nodup)
    {name : String} {t : FileTree} {e : String × FileTree} :
    e ∈ put name t entries ↔ e = (name, t) ∨ e ∈ entries ∧ e.1 ≠ name := by
  rw [(put_perm h name t).mem_iff, List.mem_cons, mem_others]

theorem mem_of_lookup {entries : List (String × FileTree)} {name : String} {t : FileTree}
    (h : entries.lookup name = some t) : (name, t) ∈ entries := by
  obtain ⟨before, behind, rfl, -⟩ := List.lookup_eq_some_iff.mp h
  exact List.mem_append_right _ List.mem_cons_self

theorem lookup_of_mem {entries : List (String × FileTree)} (h : (entries.map Prod.fst).Nodup)
    {name : String} {t : FileTree} (hmem : (name, t) ∈ entries) :
    entries.lookup name = some t := by
  induction entries with
  | nil => cases hmem
  | cons e entries ih =>
    obtain ⟨n, u⟩ := e
    rw [List.map_cons, List.nodup_cons] at h
    rw [lookup_cons]
    rcases List.mem_cons.mp hmem with heq | hbelow
    · cases heq
      rw [if_pos rfl]
    · rw [if_neg, ih h.2 hbelow]
      intro heq
      exact h.1 (List.mem_map.mpr ⟨_, hbelow, heq⟩)

/-! ### Locations -/

variable {change : Option FileTree → Option FileTree} {t t' u : FileTree} {l rest : Location}

theorem at?_append (l rest : Location) (t : FileTree) :
    t.at? (l ++ rest) = (t.at? l).bind (at? rest) := by
  induction l generalizing t with
  | nil => rfl
  | cons name l ih =>
    cases t with
    | file content => rfl
    | directory entries =>
      rw [List.cons_append, at?, at?]
      cases entries.lookup name with
      | none => rfl
      | some u => exact ih u

theorem hasDirectory_of_append (h : t.hasDirectory (l ++ rest) = true) :
    t.hasDirectory l = true := by
  rw [hasDirectory, at?_append] at h
  rw [hasDirectory]
  cases hl : t.at? l with
  | none =>
    rw [hl] at h
    cases h
  | some u =>
    cases u with
    | directory entries => rfl
    | file content =>
      rw [hl] at h
      cases rest with
      | nil => exact h
      | cons name rest => cases h

/-- The entry that an alteration puts into a directory, below which it goes on. -/
theorem exists_of_alter_cons {name : String} (h : alter change (name :: l) t = some t') :
    ∃ entries u, t = .directory entries ∧ t' = .directory (put name u entries) ∧
      ((∃ v, entries.lookup name = some v ∧ alter change l v = some u) ∨
        entries.lookup name = none ∧ l = [] ∧ change none = some u) := by
  cases t with
  | file content => cases l <;> cases h
  | directory entries =>
    cases hname : entries.lookup name with
    | none =>
      cases l with
      | nil =>
        simp only [alter, hname] at h
        split at h
        · obtain ⟨u, hu, rfl⟩ := Option.map_eq_some_iff.mp h
          exact ⟨entries, u, rfl, rfl, .inr ⟨hname, rfl, hu⟩⟩
        · cases h
      | cons next l =>
        simp only [alter, hname] at h
        cases h
    | some v =>
      have halter : (alter change l v).map (fun u => directory (put name u entries)) = some t' := by
        cases l with
        | nil => simpa only [alter, hname] using h
        | cons next l => simpa only [alter, hname] using h
      obtain ⟨u, hu, rfl⟩ := Option.map_eq_some_iff.mp halter
      exact ⟨entries, u, rfl, rfl, .inl ⟨v, hname, hu⟩⟩

/-- Below a directory the alteration is one of the directory. -/
theorem exists_of_alter_append (hl : t.at? l = some u) (hrest : rest ≠ [])
    (h : alter change (l ++ rest) t = some t') :
    ∃ u', alter change rest u = some u' ∧ t'.at? l = some u' := by
  induction l generalizing t t' with
  | nil =>
    cases hl
    exact ⟨t', h, rfl⟩
  | cons name l ih =>
    obtain ⟨entries, w, rfl, rfl, ⟨v, hv, hw⟩ | ⟨-, hnil, -⟩⟩ := exists_of_alter_cons h
    · rw [at?, hv, Option.bind_some] at hl
      obtain ⟨u', hu', hat⟩ := ih hl hw
      exact ⟨u', hu', by rw [at?, lookup_put_self, Option.bind_some, hat]⟩
    · exact absurd (List.append_eq_nil_iff.mp hnil).2 hrest

/-- An alteration that is made of no directory keeps those that there are. -/
theorem hasDirectory_alter {k : Location}
    (hchange : ∀ entries, change (some (.directory entries)) = none)
    (h : alter change l t = some t') (hk : t.hasDirectory k = true) : t'.hasDirectory k = true := by
  induction l generalizing t t' k with
  | nil =>
    rw [alter] at h
    cases t with
    | directory entries => rw [hchange] at h; cases h
    | file content => cases k <;> cases hk
  | cons name l ih =>
    obtain ⟨entries, u, rfl, rfl, hbelow⟩ := exists_of_alter_cons h
    cases k with
    | nil => rfl
    | cons other k =>
      rw [hasDirectory, at?] at hk ⊢
      rw [lookup_put]
      by_cases hother : other = name
      · subst hother
        obtain ⟨v, hv, hu⟩ | ⟨hnone, -, -⟩ := hbelow
        · rw [hv] at hk
          rw [if_pos rfl]
          exact ih hu hk
        · rw [hnone] at hk
          cases hk
      · rw [if_neg hother]
        exact hk

/-! ### Routes -/

theorem follow_append (t : FileTree) (inner ps qs : List String) :
    follow t inner (ps ++ qs) =
      (follow t inner ps).bind fun l => follow t l.reverse qs := by
  induction ps generalizing inner with
  | nil => simp [follow]
  | cons p ps ih =>
    rw [List.cons_append, follow, follow]
    split
    · exact ih _
    · split
      · exact ih _
      · rfl

theorem follow_name (t : FileTree) (inner : List String) {name : String}
    (h : Route.isName name = true) : follow t inner [name] = some (inner.reverse ++ [name]) := by
  simp [follow, h]

/-- A route can be followed as before if no directory is lost. -/
theorem follow_mono (hkeep : ∀ k, t.hasDirectory k = true → t'.hasDirectory k = true)
    {inner ps : List String} (h : follow t inner ps = some l) : follow t' inner ps = some l := by
  induction ps generalizing inner with
  | nil => exact h
  | cons p ps ih =>
    rw [follow] at h ⊢
    split at h
    · rw [if_pos ‹_›]
      exact ih h
    · split at h
      · rw [if_neg ‹_›, if_pos (hkeep _ ‹_›)]
        exact ih h
      · cases h

/-- A route that leads to a directory passes through directories only. -/
theorem hasDirectory_of_follow {inner ps : List String} (h : follow t inner ps = some l)
    (hl : t.hasDirectory l = true) : t.hasDirectory inner.reverse = true := by
  induction ps generalizing inner with
  | nil =>
    cases h
    exact hl
  | cons p ps ih =>
    rw [follow] at h
    split at h
    · have hbelow := ih h
      rw [List.reverse_cons] at hbelow
      exact hasDirectory_of_append hbelow
    · split at h
      · assumption
      · cases h

theorem exists_follow_of_beginning {ps qs : List String} (h : follow t [] ps = some l)
    (hl : t.hasDirectory l = true) (hqs : qs <+: ps) :
    ∃ k, follow t [] qs = some k ∧ t.hasDirectory k = true := by
  obtain ⟨rs, rfl⟩ := hqs
  rw [follow_append, Option.bind_eq_some_iff] at h
  obtain ⟨k, hk, hrest⟩ := h
  have hdirectory := hasDirectory_of_follow hrest hl
  rw [List.reverse_reverse] at hdirectory
  exact ⟨k, hk, hdirectory⟩

namespace Route

theorem text_append_le (ps qs : List String) :
    (text ⟨ps⟩).utf8ByteSize ≤ (text ⟨ps ++ qs⟩).utf8ByteSize := by
  simp only [text]
  induction ps with
  | nil => simp
  | cons p ps ih =>
    cases ps with
    | nil =>
      cases qs with
      | nil => exact Nat.le_refl _
      | cons q qs =>
        rw [List.singleton_append, String.intercalate_cons_cons, String.intercalate_singleton]
        simp only [String.utf8ByteSize_append]
        omega
    | cons p' ps =>
      rw [List.cons_append, List.cons_append, String.intercalate_cons_cons,
        String.intercalate_cons_cons]
      simp only [String.utf8ByteSize_append]
      exact Nat.add_le_add_left ih _

theorem isAllowed_of_beginning {ps qs : List String} (h : isAllowed ⟨ps⟩ = true) (hqs : qs <+: ps) :
    isAllowed ⟨qs⟩ = true := by
  obtain ⟨rs, rfl⟩ := hqs
  simp only [isAllowed, Bool.and_eq_true, decide_eq_true_eq, List.all_append] at h ⊢
  exact ⟨Nat.le_trans (text_append_le qs rs) h.1, h.2.1⟩

theorem isStep_of_isName {part : String} (h : isName part = true) : isStep part = true := by
  simp only [isName, isStep, Bool.and_eq_true] at h ⊢
  exact h.1

theorem isPrefix_of_mem_beginnings {ps qs : List String} (h : qs ∈ beginnings ps) : qs <+: ps := by
  induction ps generalizing qs with
  | nil => cases h
  | cons p ps ih =>
    rw [beginnings] at h
    have hlonger : ∀ qs ∈ (beginnings ps).map (p :: ·), qs <+: p :: ps := by
      intro qs hqs
      obtain ⟨rs, hrs, rfl⟩ := List.mem_map.mp hqs
      exact List.prefix_cons_inj p |>.mpr (ih hrs)
    split at h
    · rcases List.mem_cons.mp h with rfl | h
      · exact ⟨ps, rfl⟩
      · exact hlonger qs h
    · exact hlonger qs h

theorem beginnings_append_step (ps : List String) {part : String} (h : isStep part = true) :
    beginnings (ps ++ [part]) = beginnings ps ++ [ps ++ [part]] := by
  induction ps with
  | nil => simp [beginnings, h]
  | cons p ps ih =>
    simp only [List.cons_append, beginnings, ih, List.map_append]
    split <;> rfl

/-- The parts of a route that lead to the directory at its end. -/
def base (r : Route) : List String := if r.endsWithSlash then r.parts.dropLast else r.parts

theorem join_eq (r : Route) (name : String) : r.join name = ⟨r.base ++ [name]⟩ := rfl

theorem above_join (r : Route) {name : String} (h : isName name = true) :
    (r.join name).above = (beginnings r.base).map mk := by
  rw [above, join_eq, beginnings_append_step _ (isStep_of_isName h), List.dropLast_concat]

end Route

/-! ### Changes below a directory -/

variable {r : Route} {entries : List (String × FileTree)} {name : String}

/-- The location of a directory that a route leads to. -/
theorem exists_location (h : t.find? r = some (.directory entries)) :
    ∃ l, r.isAllowed = true ∧ follow t [] r.parts = some l ∧ follow t [] r.base = some l ∧
      t.at? l = some (.directory entries) := by
  rw [find?] at h
  split at h
  · rename_i hallowed
    obtain ⟨l, hfollow, hat⟩ := Option.bind_eq_some_iff.mp h
    refine ⟨l, hallowed, hfollow, ?_, hat⟩
    have hdirectory : t.hasDirectory l = true := by rw [hasDirectory, hat]; rfl
    rw [Route.base]
    split
    · -- The empty part at the end stays where it is.
      rename_i hslash
      rw [Route.endsWithSlash, decide_eq_true_eq] at hslash
      obtain ⟨ps, hparts⟩ := List.getLast?_eq_some_iff.mp hslash
      rw [hparts, follow_append, Option.bind_eq_some_iff] at hfollow
      obtain ⟨k, hk, hstay⟩ := hfollow
      rw [hparts, List.dropLast_concat, hk]
      have hempty : ¬ Route.isName "" = true := by decide
      simp only [follow, if_neg hempty, List.reverse_reverse] at hstay
      split at hstay
      · simpa using hstay
      · cases hstay
    · exact hfollow
  · cases h

theorem find?_join (h : t.find? r = some (.directory entries)) (hname : Route.isName name = true)
    (hallowed : (r.join name).isAllowed = true) : t.find? (r.join name) = entries.lookup name := by
  obtain ⟨l, -, -, hbase, hat⟩ := exists_location h
  rw [find?, if_pos hallowed, Route.join_eq, follow_append, hbase, Option.bind_some,
    follow_name _ _ hname, Option.bind_some, List.reverse_reverse, at?_append, hat,
    Option.bind_some, at?]
  cases entries.lookup name <;> rfl

theorem place?_of_concat {ps : List String} (hl : follow t [] ps = some l)
    (hname : Route.isName name = true) (hallowed : Route.isAllowed ⟨ps ++ [name]⟩ = true) :
    t.place? ⟨ps ++ [name]⟩ = some (l ++ [name]) := by
  have hne : name ≠ "" := by
    rintro rfl
    cases hname
  simp [place?, hallowed, hne, hname, hl]

/-- Below a directory that a route leads to, an alteration that is made of no directory is one
of this directory. -/
theorem find?_of_alter (h : t.find? r = some u) (hl : follow t [] r.parts = some l)
    (hrest : rest ≠ []) (hchange : ∀ entries, change (some (.directory entries)) = none)
    (halter : alter change (l ++ rest) t = some t') :
    ∃ u', alter change rest u = some u' ∧ t'.find? r = some u' := by
  rw [find?] at h ⊢
  split at h
  · rw [hl, Option.bind_some] at h
    obtain ⟨u', hu', hat⟩ := exists_of_alter_append h hrest halter
    have hfollow := follow_mono (fun _ => hasDirectory_alter hchange halter) hl
    exact ⟨u', hu', by rw [if_pos ‹_›, hfollow, Option.bind_some, hat]⟩
  · cases h

theorem makeEach_append_of_directories {qs rs : List Route}
    (h : ∀ q ∈ qs, (t.find? q).any isDirectory = true) :
    makeEach (qs ++ rs) t = makeEach rs t := by
  induction qs with
  | nil => rfl
  | cons q qs ih =>
    rw [List.cons_append, makeEach, makeEntry, if_pos (h q List.mem_cons_self)]
    exact ih fun q' hq' => h q' (List.mem_cons_of_mem _ hq')

/-- The directories above an entry of a directory are there. -/
theorem find?_above_join (h : t.find? r = some (.directory entries))
    (hname : Route.isName name = true) (hallowed : (r.join name).isAllowed = true) :
    ∀ q ∈ (r.join name).above, (t.find? q).any isDirectory = true := by
  intro q hq
  rw [Route.above_join r hname] at hq
  obtain ⟨qs, hqs, rfl⟩ := List.mem_map.mp hq
  obtain ⟨l, -, -, hbase, hat⟩ := exists_location h
  have hbeginning := Route.isPrefix_of_mem_beginnings hqs
  have hl : t.hasDirectory l = true := by rw [hasDirectory, hat]; rfl
  obtain ⟨k, hk, hdirectory⟩ := exists_follow_of_beginning hbase hl hbeginning
  have hq : Route.isAllowed ⟨qs⟩ = true :=
    Route.isAllowed_of_beginning hallowed (hbeginning.trans (List.prefix_append _ _))
  rw [find?, if_pos hq, hk]
  exact hdirectory

/-- The files in an entry of a directory, if it is a directory itself. -/
def filesIn (entries : List (String × FileTree)) (name : String) : List (String × FileTree) :=
  match entries.lookup name with
  | some (.directory files) => files
  | _ => []

theorem filesIn_put (name : String) (files entries : List (String × FileTree)) (other : String) :
    filesIn (put name (.directory files) entries) other =
      if other = name then files else filesIn entries other := by
  by_cases h : other = name
  · simp [filesIn, h]
  · simp [filesIn, lookup_put, h]

/-- Making a directory in another one puts one there that has the files it had before. -/
theorem find?_of_makeDirectory (h : t.find? r = some (.directory entries))
    (hname : Route.isName name = true) (hmade : t.makeDirectory (r.join name) = (t', true)) :
    (r.join name).isAllowed = true ∧ (∀ content, entries.lookup name ≠ some (.file content)) ∧
      t'.find? r = some (.directory (put name (.directory (filesIn entries name)) entries)) := by
  rw [makeDirectory] at hmade
  split at hmade
  · rename_i hallowed
    refine ⟨hallowed, ?_⟩
    obtain ⟨l, -, hl, hbase, -⟩ := exists_location h
    rw [makeEach_append_of_directories (find?_above_join h hname hallowed), makeEach, makeEntry,
      find?_join h hname hallowed, Route.join_eq,
      place?_of_concat hbase hname hallowed, Option.bind_some] at hmade
    split at hmade
    · rename_i hmake
      cases hmade
      split at hmake
      · rename_i hdirectory
        cases hmake
        cases hlookup : entries.lookup name with
        | none =>
          rw [hlookup] at hdirectory
          cases hdirectory
        | some u =>
          rw [hlookup] at hdirectory
          cases u with
          | file content => cases hdirectory
          | directory files =>
            refine ⟨by simp, ?_⟩
            rw [filesIn, hlookup, put_of_lookup hlookup, h]
      · obtain ⟨u', hu', hfind⟩ := find?_of_alter h hl (List.cons_ne_nil _ _) (fun _ => rfl) hmake
        obtain ⟨entries', v, heq, rfl, ⟨w, -, hw⟩ | ⟨hnone, -, hv⟩⟩ := exists_of_alter_cons hu'
        · cases hw
        · cases heq
          cases hv
          refine ⟨by simp [hnone], ?_⟩
          rw [filesIn, hnone, hfind, empty]
    · cases hmade
  · cases hmade

/-- Writing a file into a directory below another one puts it there in place of the one of its
name. -/
theorem find?_of_write {files : List (String × FileTree)} {file : String} {content : ByteArray}
    (h : t.find? r = some (.directory entries))
    (hlookup : entries.lookup name = some (.directory files))
    (hname : Route.isName name = true) (hfile : Route.isName file = true)
    (hwritten : t.write content ((r.join name).join file) = some t') :
    ((r.join name).join file).isAllowed = true ∧
      t'.find? r =
        some (.directory (put name (.directory (put file (.file content) files)) entries)) := by
  have hne : name ≠ "" := by
    rintro rfl
    cases hname
  have hbase : (r.join name).base = r.base ++ [name] := by
    simp [Route.base, Route.join_eq, Route.endsWithSlash, hne]
  obtain ⟨l, -, hl, hlbase, hat⟩ := exists_location h
  rw [write] at hwritten
  split at hwritten
  · cases hwritten
  · obtain ⟨place, hplace, halter⟩ := Option.bind_eq_some_iff.mp hwritten
    have hallowed : ((r.join name).join file).isAllowed = true := by
      rw [place?] at hplace
      split at hplace
      · assumption
      · cases hplace
    refine ⟨hallowed, ?_⟩
    have hfollow : follow t [] (r.base ++ [name]) = some (l ++ [name]) := by
      rw [follow_append, hlbase, Option.bind_some, follow_name _ _ hname, List.reverse_reverse]
    rw [Route.join_eq, hbase] at hplace hallowed
    rw [place?_of_concat hfollow hfile hallowed, Option.some.injEq] at hplace
    rw [← hplace, List.append_assoc] at halter
    obtain ⟨u', hu', hfind⟩ := find?_of_alter h hl (by simp) (fun _ => rfl) halter
    rw [hfind]
    obtain ⟨entries', v, heq, rfl, ⟨w, hw, hv⟩ | ⟨-, hnil, -⟩⟩ := exists_of_alter_cons hu'
    · cases heq
      cases hlookup.symm.trans hw
      obtain ⟨files', x, heq', rfl, ⟨y, -, hx⟩ | ⟨-, -, hx⟩⟩ := exists_of_alter_cons hv
      · cases heq'
        cases y with
        | directory ds => cases hx
        | file old =>
          cases hx
          rfl
      · cases heq'
        cases hx
        rfl
    · cases hnil

/-! ### Changes that stop -/

/-- What is seen of a directory is still a directory if none is lost. -/
theorem isDirectory_find?_mono (hkeep : ∀ k, t.hasDirectory k = true → t'.hasDirectory k = true)
    (h : (t.find? r).any isDirectory = true) : (t'.find? r).any isDirectory = true := by
  rw [find?] at h ⊢
  split at h
  · rename_i hallowed
    rw [if_pos hallowed]
    cases hl : follow t [] r.parts with
    | none =>
      rw [hl] at h
      cases h
    | some l =>
      rw [hl] at h
      rw [follow_mono hkeep hl]
      exact hkeep l h
  · cases h

theorem hasDirectory_makeEntry {k : Location} (h : t.makeEntry r = some t')
    (hk : t.hasDirectory k = true) : t'.hasDirectory k = true := by
  rw [makeEntry] at h
  split at h
  · cases h
    exact hk
  · obtain ⟨place, -, halter⟩ := Option.bind_eq_some_iff.mp h
    exact hasDirectory_alter (fun _ => rfl) halter hk

theorem hasDirectory_makeEach {rs : List Route} {k : Location} (hk : t.hasDirectory k = true) :
    (makeEach rs t).1.hasDirectory k = true := by
  induction rs generalizing t with
  | nil => exact hk
  | cons r rs ih =>
    rw [makeEach]
    split
    · exact ih (hasDirectory_makeEntry ‹_› hk)
    · exact hk

/-- No change takes a directory away, whether it is made in full or not. -/
theorem hasDirectory_perform {k : Location} (e : Effect) (hk : t.hasDirectory k = true) :
    (t.perform e).1.hasDirectory k = true := by
  cases e with
  | makeDirectory r =>
    rw [perform, makeDirectory]
    split
    · exact hasDirectory_makeEach hk
    · exact hk
  | write r content =>
    rw [perform, write]
    split
    · rename_i hwritten
      split at hwritten
      · cases hwritten
      · obtain ⟨place, -, halter⟩ := Option.bind_eq_some_iff.mp hwritten
        exact hasDirectory_alter (fun _ => rfl) halter hk
    · exact hk

/-- A directory that cannot be made in another one leaves nothing behind. -/
theorem makeDirectory_of_false (h : t.find? r = some (.directory entries))
    (hname : Route.isName name = true) (hmade : t.makeDirectory (r.join name) = (t', false)) :
    t' = t := by
  rw [makeDirectory] at hmade
  split at hmade
  · rename_i hallowed
    rw [makeEach_append_of_directories (find?_above_join h hname hallowed), makeEach] at hmade
    split at hmade
    · cases hmade
    · cases hmade
      rfl
  · cases hmade
    rfl

end ShapeLedger.FileTree
