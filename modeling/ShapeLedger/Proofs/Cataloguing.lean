import Mathlib.Data.List.Induction
import ShapeLedger.Proofs.SnapshotReadBack

/-!
How catalogs come to be. A snapshot is taken over whole or not at all: if it
gives a name to two definitions, the first of them that comes too late is named
in the refusal, and otherwise the catalog holds what the snapshot lists. Other
catalogs are made by filing definitions one after the other, where a later one
takes the place of an earlier one of its name. A catalog stands for a map from
keys to definitions that is filled step by step, and every key of the map has
the definition of that name.
-/

namespace ShapeLedger

/-- Definitions under keys. Nothing in it ties a definition to its key. -/
abbrev Shelf := String → Option Definition

namespace Shelf

def empty : Shelf := fun _ => none

/-- Puts a definition under its name, in place of what stands there. -/
def put (s : Shelf) (d : Definition) : Shelf := fun key => if d.name = key then some d else s key

def ofList (ds : List Definition) : Shelf := ds.foldl put empty

/-- Puts definitions one after the other and stops at the first that takes another one's place. -/
def fill (s : Shelf) : List Definition → Except DuplicateType Shelf
  | [] => .ok s
  | d :: ds => if (s d.name).isSome then .error ⟨d.name⟩ else fill (s.put d) ds

end Shelf

namespace Catalog

/-- A step in the making of a catalog. -/
inductive Step where
  | file (d : Definition)
  /-- Begins again with the definitions of a list. -/
  | collect (ds : List Definition)
  /-- Begins again with a snapshot, if it can be read. -/
  | read (snapshot : String)

def perform (c : Catalog) : Step → Catalog
  | .file d => c.insert d
  | .collect ds => NameTable.ofList Definition.name ds
  | .read s => (ofSnapshot s).toOption.getD c

/-- The catalog after some steps, the first of which finds an empty one. -/
def afterSteps (steps : List Step) : Catalog := steps.foldl perform NameTable.empty

/-- The definition of a list that is the first to have the name of an earlier one. -/
def FirstRepeated (ds : List Definition) (d : Definition) : Prop :=
  ∃ before behind, ds = before ++ d :: behind ∧ (before.map Definition.name).Nodup ∧
    d.name ∈ before.map Definition.name

end Catalog

namespace Shelf

/-- What a step in the making of a catalog does under the keys. -/
def perform (s : Shelf) : Catalog.Step → Shelf
  | .file d => s.put d
  | .collect ds => ofList ds
  | .read text =>
    match Catalog.listed? text with
    | none => s
    | some ds => (empty.fill ds).toOption.getD s

def afterSteps (steps : List Catalog.Step) : Shelf := steps.foldl perform empty

/-! ### Catalogs as shelves -/

theorem put_find? (c : Catalog) (d : Definition) : put c.find? d = (c.insert d).find? := by
  funext key
  rw [put, NameTable.find?_insert]

theorem foldl_put_find? (c : Catalog) (ds : List Definition) :
    ds.foldl put c.find? = (ds.foldl NameTable.insert c).find? := by
  induction ds generalizing c with
  | nil => rfl
  | cons d ds ih => rw [List.foldl_cons, List.foldl_cons, put_find?, ih]

theorem ofList_eq_find? (ds : List Definition) :
    ofList ds = (NameTable.ofList Definition.name ds).find? :=
  foldl_put_find? NameTable.empty ds

/-- Looking for a repeated name first comes to the same as stopping where one is met. -/
theorem fill_find? {c : Catalog} {seen : List String}
    (hseen : ∀ name, name ∈ seen ↔ (c.find? name).isSome) (ds : List Definition) :
    fill c.find? ds =
      match Catalog.firstRepeated? seen (ds.map Definition.name) with
      | some name => .error ⟨name⟩
      | none => .ok (ds.foldl NameTable.insert c).find? := by
  -- On the list, with the names seen so far always those of the definitions filed so far.
  induction ds generalizing c seen with
  | nil => rfl
  | cons d ds ih =>
    rw [fill, List.map_cons, Catalog.firstRepeated?]
    by_cases hd : d.name ∈ seen
    · rw [if_pos ((hseen _).mp hd), if_pos hd]
    · have hseen' : ∀ name, name ∈ d.name :: seen ↔ ((c.insert d).find? name).isSome := by
        intro name
        rw [NameTable.find?_insert, List.mem_cons, hseen]
        by_cases hname : d.name = name
        · simp [hname]
        · simp [hname, Ne.symm hname]
      rw [if_neg (mt (hseen _).mpr hd), if_neg hd, put_find?, ih hseen', List.foldl_cons]

theorem fill_empty (ds : List Definition) :
    fill empty ds = (Catalog.ofDefinitions ds).map NameTable.find? := by
  have hseen : ∀ name, name ∈ ([] : List String) ↔
      ((NameTable.empty : Catalog).find? name).isSome := by
    simp
  have hfill := fill_find? hseen ds
  have hempty : (NameTable.empty : Catalog).find? = empty := rfl
  rw [hempty] at hfill
  rw [hfill, Catalog.ofDefinitions]
  cases Catalog.firstRepeated? [] (ds.map Definition.name) <;> rfl

end Shelf

namespace Catalog

variable {s : String} {ds : List Definition} {c : Catalog}

/-- What a step makes of a catalog it makes of the map that the catalog stands for. -/
theorem perform_find? (c : Catalog) (step : Step) :
    Shelf.perform c.find? step = (c.perform step).find? := by
  cases step with
  | file d => exact Shelf.put_find? c d
  | collect ds => exact Shelf.ofList_eq_find? ds
  | read text =>
    rw [Shelf.perform, perform]
    cases hlisted : listed? text with
    | none =>
      rw [ofSnapshot_of_not_listed hlisted]
      rfl
    | some ds =>
      simp only [ofSnapshot_of_listed hlisted, Shelf.fill_empty]
      cases ofDefinitions ds <;> rfl

theorem afterSteps_find? (steps : List Step) :
    Shelf.afterSteps steps = (afterSteps steps).find? := by
  induction steps using List.reverseRecOn with
  | nil => rfl
  | append_singleton steps step ih =>
    rw [Shelf.afterSteps, List.foldl_append, ← Shelf.afterSteps, ih, List.foldl_cons,
      List.foldl_nil, perform_find?, afterSteps, afterSteps, List.foldl_append, List.foldl_cons,
      List.foldl_nil]

/-! ### Snapshots that repeat a name -/

theorem firstRepeated?_eq_some {seen names : List String} {name : String}
    (h : firstRepeated? seen names = some name) :
    ∃ before behind, names = before ++ name :: behind ∧ before.Nodup ∧
      (∀ n ∈ before, n ∉ seen) ∧ (name ∈ seen ∨ name ∈ before) := by
  induction names generalizing seen with
  | nil => cases h
  | cons first names ih =>
    rw [firstRepeated?] at h
    split at h
    · rename_i hseen
      cases h
      have hfresh : ∀ n ∈ [], n ∉ seen := fun n hn => absurd hn List.not_mem_nil
      exact ⟨[], names, rfl, List.nodup_nil, hfresh, .inl hseen⟩
    · rename_i hseen
      obtain ⟨before, behind, rfl, hnodup, hfresh, hname⟩ := ih h
      have hfirst : first ∉ before := fun hmem => hfresh first hmem List.mem_cons_self
      -- The first name is seen by the rest of the search, so what was seen is it or was seen before.
      refine ⟨first :: before, behind, rfl, List.nodup_cons.mpr ⟨hfirst, hnodup⟩, ?_, ?_⟩
      · refine List.forall_mem_cons.mpr ⟨hseen, fun n hn hmem => ?_⟩
        exact hfresh n hn (List.mem_cons_of_mem _ hmem)
      · rw [List.mem_cons] at hname ⊢
        tauto

/-- Names that are new do not end the search. -/
theorem firstRepeated?_append {before seen : List String} (hnodup : before.Nodup)
    (hfresh : ∀ n ∈ before, n ∉ seen) (names : List String) :
    firstRepeated? seen (before ++ names) = firstRepeated? (before.reverse ++ seen) names := by
  induction before generalizing seen with
  | nil => rfl
  | cons first before ih =>
    obtain ⟨hfirst, hbefore⟩ := List.nodup_cons.mp hnodup
    obtain ⟨hseen, hrest⟩ := List.forall_mem_cons.mp hfresh
    have hfresh' : ∀ n ∈ before, n ∉ first :: seen := by
      intro n hn hmem
      rcases List.mem_cons.mp hmem with rfl | hmem
      · exact hfirst hn
      · exact hrest n hn hmem
    rw [List.cons_append, firstRepeated?, if_neg hseen, ih hbefore hfresh', List.reverse_cons,
      List.append_assoc, List.singleton_append]

theorem exists_firstRepeated (h : ¬ (ds.map Definition.name).Nodup) : ∃ d, FirstRepeated ds d := by
  cases hrepeated : firstRepeated? [] (ds.map Definition.name) with
  | none => exact absurd (firstRepeated?_eq_none_iff.mp hrepeated).1 h
  | some name =>
    obtain ⟨names, rest, hnames, hnodup, -, hname⟩ := firstRepeated?_eq_some hrepeated
    obtain ⟨before, others, rfl, rfl, hothers⟩ := List.map_eq_append_iff.mp hnames
    obtain ⟨d, behind, rfl, rfl, rfl⟩ := List.map_eq_cons_iff.mp hothers
    exact ⟨d, before, behind, rfl, hnodup, hname.resolve_left List.not_mem_nil⟩

theorem ofDefinitions_of_firstRepeated {d : Definition} (h : FirstRepeated ds d) :
    ofDefinitions ds = .error ⟨d.name⟩ := by
  obtain ⟨before, behind, rfl, hnodup, hname⟩ := h
  have hrepeated : firstRepeated? [] ((before ++ d :: behind).map Definition.name) =
      some d.name := by
    rw [List.map_append, firstRepeated?_append hnodup (fun _ _ => List.not_mem_nil), List.map_cons,
      firstRepeated?, if_pos (List.mem_append_left _ (List.mem_reverse.mpr hname))]
  rw [ofDefinitions, hrepeated]

/-- A snapshot is read if it names no two definitions alike, and then its definitions are found,
none is lost, and their order is forgotten. Otherwise it is refused for the first definition that
repeats a name. However a catalog was made, it finds under each key what the steps put there, and
that is a definition of this name. -/
theorem snapshot_allOrNothing (h : listed? s = some ds) :
    ((∃ c, ofSnapshot s = .ok c) ↔ (ds.map Definition.name).Nodup) ∧
      (∀ c, ofSnapshot s = .ok c →
        (∀ name d, c.find? name = some d ↔ d ∈ ds ∧ d.name = name) ∧ c.size = ds.length ∧
          ∀ s' ds', listed? s' = some ds' → ds.Perm ds' → ofSnapshot s' = .ok c) ∧
      (¬ (ds.map Definition.name).Nodup → ∃ d, FirstRepeated ds d) ∧
      (∀ d, FirstRepeated ds d → ofSnapshot s = .error (.duplicateType ⟨d.name⟩)) ∧
      ∀ steps, Shelf.afterSteps steps = (afterSteps steps).find? ∧
        ∀ name d, Shelf.afterSteps steps name = some d → d.name = name := by
  refine ⟨⟨fun ⟨c, hc⟩ => ((ofSnapshot_eq_ok_iff h).mp hc).1, fun hnodup => ?_⟩, fun c hc => ?_,
    exists_firstRepeated, fun d hd => ?_, fun steps => ⟨afterSteps_find? steps, fun name d hd => ?_⟩⟩
  · exact ⟨_, (ofSnapshot_eq_ok_iff h).mpr ⟨hnodup, rfl⟩⟩
  · obtain ⟨hnodup, rfl⟩ := (ofSnapshot_eq_ok_iff h).mp hc
    refine ⟨fun name d => NameTable.find?_ofList_eq_some_iff hnodup,
      (NameTable.perm_items_ofList hnodup).length_eq.symm, fun s' ds' h' hperm => ?_⟩
    have hnodup' : (ds'.map Definition.name).Nodup := (hperm.map _).nodup_iff.mp hnodup
    exact (ofSnapshot_eq_ok_iff h').mpr
      ⟨hnodup', (NameTable.ofList_eq_of_perm hnodup hperm).symm⟩
  · rw [ofSnapshot_of_listed h, ofDefinitions_of_firstRepeated hd]
    rfl
  · rw [afterSteps_find?] at hd
    exact NameTable.nameOf_of_find? hd

/-- Definitions that have nothing but their names. -/
def namesOnly (names : List String) : List Definition := names.map fun name => { name }

/-- Two definitions are listed in either order, and then both a second time, the other way round. -/
theorem snapshot_allOrNothing_pairs :
    (∃ c, ofSnapshot "[[[\"B\"],[\"A\"]]]" = .ok c ∧ ofSnapshot "[[[\"A\"],[\"B\"]]]" = .ok c ∧
        c.find? "A" = some { name := "A" } ∧ c.size = 2) ∧
      ofSnapshot "[[[\"A\"],[\"B\"],[\"B\"],[\"A\"]]]" = .error (.duplicateType ⟨"B"⟩) := by
  have hba : listed? "[[[\"B\"],[\"A\"]]]" = some (namesOnly ["B", "A"]) := by cbv
  have hab : listed? "[[[\"A\"],[\"B\"]]]" = some (namesOnly ["A", "B"]) := by cbv
  have hrepeats : listed? "[[[\"A\"],[\"B\"],[\"B\"],[\"A\"]]]" =
      some (namesOnly ["A", "B", "B", "A"]) := by cbv
  have hfirst : FirstRepeated (namesOnly ["A", "B", "B", "A"]) { name := "B" } :=
    ⟨namesOnly ["A", "B"], namesOnly ["A"], rfl, by decide, by decide⟩
  obtain ⟨c, hc⟩ := (snapshot_allOrNothing hba).1.mpr (by decide)
  obtain ⟨hfound, hsize, horder⟩ := (snapshot_allOrNothing hba).2.1 c hc
  exact ⟨⟨c, hc, horder _ _ hab (.swap _ _ _), (hfound _ _).mpr (by decide), hsize⟩,
    (snapshot_allOrNothing hrepeats).2.2.2.1 _ hfirst⟩

end Catalog

end ShapeLedger
