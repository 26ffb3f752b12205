import ShapeLedger.Catalog.Snapshot
import ShapeLedger.Proofs.JsonDecode
import ShapeLedger.Proofs.LedgerReadBack
import ShapeLedger.Proofs.Tables

/-!
A catalog is read back from its snapshot. Every decoder undoes its printer,
from references up to the whole list of definitions, so the text of a catalog
gives the catalog back, unless its references are nested so deeply that the
reader does not open them. What was read was within that limit when it was
written, and it is when it is written again.
-/

namespace ShapeLedger

open Json (Source source sources sourceFields depth depthItems depthFields ReadsBack Fits)

namespace TypeRef

mutual

theorem ofJson?_source (r : TypeRef) : ofJson? (source r.toJson) = some r := by
  cases r with
  | param index =>
    have hindex := Json.decodeNatural_ofNat index.toNat_lt 0
    rw [toJson, source, ofJson?, hindex, Option.map_some, UInt64.ofNat_toNat]
  | named name arguments =>
    cases arguments with
    | nil =>
      simp [toJson, source, sourceFields, ofJson?, Json.textKeys?, Json.single?, Json.decodeText,
        argumentLists?]
    | cons a as =>
      have hall := ofJsonAll?_sources (a :: as)
      rw [toJsonAll] at hall
      simp [toJson, source, sourceFields, ofJson?, Json.textKeys?, Json.single?, Json.decodeText,
        argumentLists?, hall]

theorem ofJsonAll?_sources (rs : List TypeRef) : ofJsonAll? (sources (toJsonAll rs)) = some rs := by
  cases rs with
  | nil => rfl
  | cons r rs =>
    rw [toJsonAll, sources, ofJsonAll?, ofJson?_source r, ofJsonAll?_sources rs]
    rfl

end

mutual

/-- Only its depth can keep a printed reference from being taken. -/
theorem sound_source (room : Nat) (r : TypeRef) :
    Json.sound room (source r.toJson) = decide (r.toJson.depth ≤ room) := by
  cases r with
  | param index =>
    rw [toJson, source, Json.sound, depth, Json.Number.inRange_ofNat index.toNat_lt]
    simp
  | named name arguments =>
    cases arguments with
    | nil =>
      simp [toJson, source, sourceFields, Json.sound, Json.soundFields, depth, depthFields,
        Nat.succ_le_iff]
    | cons a as =>
      have hall := soundItems_sources (room - 1 - 1) (a :: as)
      rw [toJsonAll] at hall
      simp only [toJson, source, sourceFields, Json.sound, Json.soundFields, hall, depth,
        depthFields, Option.isSome_some, Bool.true_and, Bool.and_true]
      rw [← Bool.decide_and, ← Bool.decide_and, decide_eq_decide]
      omega

theorem soundItems_sources (room : Nat) (rs : List TypeRef) :
    Json.soundItems room (sources (toJsonAll rs)) = decide (depthItems (toJsonAll rs) ≤ room) := by
  cases rs with
  | nil => simp [toJsonAll, sources, Json.soundItems, depthItems]
  | cons r rs =>
    rw [toJsonAll, sources, Json.soundItems, sound_source room r, soundItems_sources room rs,
      depthItems, ← Bool.decide_and, decide_eq_decide, Nat.max_le]

end

theorem readsBack_decode : ReadsBack decode toJson := by
  intro room r
  rw [decode, sound_source, ofJson?_source]
  simp

theorem depth_toJson_named_le (name : String) (arguments : List TypeRef) {n : Nat}
    (h : depthItems (toJsonAll arguments) < n) : (named name arguments).toJson.depth ≤ n + 1 := by
  cases arguments with
  | nil => simp [toJson, depth, depthFields]
  | cons a as =>
    rw [toJsonAll] at h
    simp only [toJson, depth, depthFields]
    omega

mutual

/-- A reference is printed no deeper than the value that it was taken from. -/
theorem depth_toJson_le {v : Source} {r : TypeRef} (h : ofJson? v = some r) :
    r.toJson.depth ≤ v.depth := by
  cases v with
  | number n =>
    rw [ofJson?] at h
    obtain ⟨i, -, rfl⟩ := Option.map_eq_some_iff.mp h
    exact Nat.zero_le _
  | object fs =>
    rw [ofJson?] at h
    obtain ⟨_, -, h⟩ := Option.bind_eq_some_iff.mp h
    obtain ⟨field, -, h⟩ := Option.bind_eq_some_iff.mp h
    obtain ⟨name, -, h⟩ := Option.bind_eq_some_iff.mp h
    obtain ⟨lists, hlists, h⟩ := Option.bind_eq_some_iff.mp h
    split at h
    · cases h
      exact Nat.succ_le_succ (Nat.zero_le _)
    · cases h
      have hlt := depthItems_lt_of_argumentLists? hlists _ List.mem_cons_self
      exact depth_toJson_named_le name _ hlt
    · cases h
  | _ => cases h

theorem depthItems_toJsonAll_le {vs : List Source} {rs : List TypeRef}
    (h : ofJsonAll? vs = some rs) : depthItems (toJsonAll rs) ≤ depthItems vs := by
  cases vs with
  | nil =>
    cases h
    exact Nat.le_refl 0
  | cons v vs =>
    rw [ofJsonAll?] at h
    obtain ⟨r, hr, h⟩ := Option.bind_eq_some_iff.mp h
    obtain ⟨rs', hrs, h⟩ := Option.bind_eq_some_iff.mp h
    cases h
    have hhead := depth_toJson_le hr
    have htail := depthItems_toJsonAll_le hrs
    rw [toJsonAll, depthItems, depthItems]
    omega

/-- Arguments stand one level below the field that holds them. -/
theorem depthItems_lt_of_argumentLists? {fs : List (Option String × Source)}
    {lists : List (List TypeRef)} (h : argumentLists? fs = some lists) :
    ∀ rs ∈ lists, depthItems (toJsonAll rs) < depthFields fs := by
  cases fs with
  | nil =>
    cases h
    exact List.forall_mem_nil _
  | cons f fs =>
    obtain ⟨key, v⟩ := f
    have hlater {rest : List (List TypeRef)} (hrest : argumentLists? fs = some rest) :
        ∀ rs ∈ rest, depthItems (toJsonAll rs) < depthFields ((key, v) :: fs) := by
      intro rs hrs
      have hlt := depthItems_lt_of_argumentLists? hrest rs hrs
      rw [depthFields]
      omega
    by_cases hkey : key = some "arguments"
    · subst hkey
      cases v with
      | array vs =>
        rw [argumentLists?] at h
        obtain ⟨rs, hrs, h⟩ := Option.bind_eq_some_iff.mp h
        obtain ⟨rest, hrest, h⟩ := Option.bind_eq_some_iff.mp h
        cases h
        have hfirst := depthItems_toJsonAll_le hrs
        refine List.forall_mem_cons.mpr ⟨?_, hlater hrest⟩
        rw [depthFields, depth]
        omega
      | _ => cases h
    · rw [argumentLists?] at h
      · exact hlater h
      · exact fun vs hvs => hkey (congrArg Prod.fst hvs)
      · exact fun v hv => hkey (congrArg Prod.fst hv)

end

theorem fits_decode : Fits decode toJson 0 := by
  intro room v r _ h
  rw [decode] at h
  split at h
  · exact Nat.le_trans (depth_toJson_le h) (Json.depth_le_of_sound ‹_›)
  · cases h

end TypeRef

namespace Member

theorem depth_toJson (m : Member) : m.toJson.depth = m.valueType.toJson.depth + 1 := by
  simp [toJson, depth, depthFields]

theorem readsBack_decode : ReadsBack decode toJson := by
  intro room m
  cases room with
  | zero => rfl
  | succ room =>
    have hvalue := TypeRef.readsBack_decode room m.valueType
    rw [depth_toJson]
    have hfields := Json.recordFields?_source [("name", .text m.name),
      ("value_type", m.valueType.toJson), ("opt_in", .bool m.optIn), ("public", .bool m.isPublic),
      ("readable", .bool m.isReadable)] (show ["name", "value_type", "opt_in", "public",
        "readable"].Nodup by decide)
    simp only [List.map_cons, List.map_nil] at hfields
    rw [decode, toJson, hfields]
    -- Of the fields only the value type can be too deep.
    change (TypeRef.decode room (source m.valueType.toJson)).bind
      (fun r => some { m with valueType := r }) = _
    rw [hvalue]
    simp only [Nat.add_le_add_iff_right]
    split <;> rfl

theorem fits_decode : Fits decode toJson 0 := by
  intro room v m _ h
  cases room with
  | zero => cases h
  | succ room =>
    rw [decode] at h
    obtain ⟨fields, -, h⟩ := Option.bind_eq_some_iff.mp h
    split at h
    · obtain ⟨name, -, h⟩ := Option.bind_eq_some_iff.mp h
      obtain ⟨r, hr, h⟩ := Option.bind_eq_some_iff.mp h
      obtain ⟨optIn, -, h⟩ := Option.bind_eq_some_iff.mp h
      obtain ⟨isPublic, -, h⟩ := Option.bind_eq_some_iff.mp h
      obtain ⟨isReadable, -, h⟩ := Option.bind_eq_some_iff.mp h
      cases h
      rw [depth_toJson]
      exact Nat.succ_le_succ (TypeRef.fits_decode.required (Nat.zero_le room) hr)
    · cases h

end Member

namespace Definition

theorem depth_toJson (d : Definition) : d.toJson.depth =
    max (depth (.array (d.contracts.map .text) : Json.Plain))
      (depth (.array (d.members.map Member.toJson) : Json.Plain)) + 1 := by
  simp [toJson, depth, depthFields]

theorem readsBack_decode : ReadsBack decode toJson := by
  intro room d
  cases room with
  | zero => rfl
  | succ room =>
    have harity := Json.decodeNatural_ofNat d.genericArity.toNat_lt room
    have hcontracts := Json.readsBack_decodeText.list room d.contracts
    have hmembers := Member.readsBack_decode.list room d.members
    have hfields := Json.recordFields?_source [("name", .text d.name),
      ("generic_arity", .number d.genericArity.toNat),
      ("contracts", .array (d.contracts.map .text)),
      ("members", .array (d.members.map Member.toJson))]
      (show ["name", "generic_arity", "contracts", "members"].Nodup by decide)
    simp only [List.map_cons, List.map_nil] at hfields
    simp only [depth_toJson, Nat.add_le_add_iff_right, Nat.max_le]
    rw [decode, toJson, hfields]
    change (Json.decodeNatural UInt64.size room (.number (.ofNat d.genericArity.toNat))).bind
      (fun n => (Json.decodeList Json.decodeText room
        (source (.array (d.contracts.map .text)))).bind fun contracts =>
          (Json.decodeList Member.decode room
            (source (.array (d.members.map Member.toJson)))).bind fun members =>
              some (Definition.mk d.name (UInt64.ofNat n) contracts members)) = _
    rw [harity, Option.bind_some, UInt64.ofNat_toNat, hcontracts, hmembers]
    by_cases hc : depth (.array (d.contracts.map .text) : Json.Plain) ≤ room
    · simp only [hc, if_true, true_and, Option.bind_some]
      split <;> rfl
    · simp only [hc, if_false, false_and]
      rfl

theorem fits_decode : Fits decode toJson 2 := by
  intro room v d hroom h
  cases room with
  | zero => cases h
  | succ room =>
    rw [decode] at h
    obtain ⟨fields, -, h⟩ := Option.bind_eq_some_iff.mp h
    split at h
    · obtain ⟨name, -, h⟩ := Option.bind_eq_some_iff.mp h
      obtain ⟨genericArity, -, h⟩ := Option.bind_eq_some_iff.mp h
      obtain ⟨contracts, hcontracts, h⟩ := Option.bind_eq_some_iff.mp h
      obtain ⟨members, hmembers, h⟩ := Option.bind_eq_some_iff.mp h
      cases h
      have hone : 0 + 1 ≤ room := Nat.le_of_succ_le_succ hroom
      rw [depth_toJson]
      exact Nat.succ_le_succ (Nat.max_le.mpr
        ⟨Json.fits_decodeText.list.optional hone hcontracts hone,
          Member.fits_decode.list.optional hone hmembers hone⟩)
    · cases h

/-- A snapshot of the definitions `ds`. -/
def allToJson (ds : List Definition) : Json.Plain :=
  .object [("types", .array (ds.map toJson))]

theorem depth_allToJson (ds : List Definition) :
    (allToJson ds).depth = depth (.array (ds.map toJson) : Json.Plain) + 1 := by
  simp [allToJson, depth, depthFields]

theorem depth_allToJson_le_iff {ds : List Definition} {n : Nat} :
    (allToJson ds).depth ≤ n + 2 ↔ ∀ d ∈ ds, d.toJson.depth ≤ n := by
  rw [depth_allToJson, depth, Nat.add_le_add_iff_right, Nat.add_le_add_iff_right,
    Json.depthItems_le_iff, List.forall_mem_map]

theorem readsBack_decodeAll : ReadsBack decodeAll allToJson := by
  intro room ds
  cases room with
  | zero => rfl
  | succ room =>
    have htypes := readsBack_decode.list room ds
    have hfields := Json.recordFields?_source [("types", .array (ds.map toJson))]
      (List.nodup_singleton "types")
    simp only [List.map_cons, List.map_nil] at hfields
    simp only [depth_allToJson, Nat.add_le_add_iff_right]
    rw [decodeAll, allToJson, hfields]
    exact htypes

theorem fits_decodeAll : Fits decodeAll allToJson 4 := by
  intro room v ds hroom h
  cases room with
  | zero => cases h
  | succ room =>
    rw [decodeAll] at h
    obtain ⟨fields, -, h⟩ := Option.bind_eq_some_iff.mp h
    split at h
    · have hthree : 2 + 1 ≤ room := Nat.le_of_succ_le_succ hroom
      rw [depth_allToJson]
      exact Nat.succ_le_succ (fits_decode.list.optional hthree h (Nat.le_trans (by decide) hthree))
    · cases h

end Definition

namespace Catalog

variable {s : String} {ds : List Definition} {c : Catalog}

theorem firstRepeated?_eq_none_iff {seen names : List String} :
    firstRepeated? seen names = none ↔ names.Nodup ∧ ∀ name ∈ names, name ∉ seen := by
  induction names generalizing seen with
  | nil => simp [firstRepeated?]
  | cons name names ih =>
    rw [firstRepeated?, List.nodup_cons, List.forall_mem_cons]
    split
    · simp [*]
    · rw [ih]
      simp only [List.mem_cons, not_or]
      constructor
      · rintro ⟨hnodup, hnames⟩
        exact ⟨⟨fun hmem => (hnames name hmem).1 rfl, hnodup⟩, ‹_›, fun n hn => (hnames n hn).2⟩
      · rintro ⟨⟨hname, hnodup⟩, -, hnames⟩
        exact ⟨hnodup, fun n hn => ⟨fun heq => hname (heq ▸ hn), hnames n hn⟩⟩

theorem ofDefinitions_eq_ok_iff :
    ofDefinitions ds = .ok c ↔
      (ds.map Definition.name).Nodup ∧ NameTable.ofList Definition.name ds = c := by
  have hrepeated : firstRepeated? [] (ds.map Definition.name) = none ↔
      (ds.map Definition.name).Nodup := by
    rw [firstRepeated?_eq_none_iff]
    simp
  rw [ofDefinitions]
  split
  · rename_i h
    simp [h, ← hrepeated]
  · rename_i h
    simp [hrepeated.mp h]

/-- The definitions of a catalog make the catalog. -/
theorem ofDefinitions_items (c : Catalog) : ofDefinitions c.items = .ok c :=
  ofDefinitions_eq_ok_iff.mpr
    ⟨c.names_ascending.imp String.ne_of_lt, NameTable.ofList_eq fun _ => Iff.rfl⟩

/-- The definitions that a snapshot lists. -/
def listed? (s : String) : Option (List Definition) :=
  Json.read s >>= Definition.decodeAll Json.maxOpen

theorem ofSnapshot_of_listed (h : listed? s = some ds) :
    ofSnapshot s = (ofDefinitions ds).mapError .duplicateType := by
  rw [listed?] at h
  rw [ofSnapshot, h]

theorem ofSnapshot_of_not_listed (h : listed? s = none) : ofSnapshot s = .error .malformed := by
  rw [listed?] at h
  rw [ofSnapshot, h]

theorem ofSnapshot_eq_ok_iff (h : listed? s = some ds) :
    ofSnapshot s = .ok c ↔
      (ds.map Definition.name).Nodup ∧ NameTable.ofList Definition.name ds = c := by
  rw [ofSnapshot_of_listed h, ← ofDefinitions_eq_ok_iff]
  cases ofDefinitions ds <;> simp [Except.mapError]

theorem listed?_snapshot (c : Catalog) :
    listed? c.snapshot = if Json.openAtOnce c.snapshot ≤ 127 then some c.items else none := by
  rw [listed?, snapshot, Json.openAtOnce_pretty, Json.read_pretty, Option.bind_eq_bind,
    Option.bind_some]
  exact Definition.readsBack_decodeAll Json.maxOpen c.items

theorem ofSnapshot_snapshot (c : Catalog) : ofSnapshot c.snapshot =
    if Json.openAtOnce c.snapshot ≤ 127 then .ok c else .error .malformed := by
  have hlisted := listed?_snapshot c
  split_ifs at hlisted ⊢
  · rw [ofSnapshot_of_listed hlisted, ofDefinitions_items]
    rfl
  · exact ofSnapshot_of_not_listed hlisted

/-- What was read is within the limit when it is written again. -/
theorem openAtOnce_le_of_ofSnapshot (h : ofSnapshot s = .ok c) :
    Json.openAtOnce c.snapshot ≤ 127 := by
  cases hlisted : listed? s with
  | none =>
    rw [ofSnapshot_of_not_listed hlisted] at h
    cases h
  | some ds =>
    obtain ⟨hnodup, rfl⟩ := (ofSnapshot_eq_ok_iff hlisted).mp h
    obtain ⟨v, -, hdecode⟩ := Option.bind_eq_some_iff.mp hlisted
    have hfits : (Definition.allToJson ds).depth ≤ 127 :=
      Definition.fits_decodeAll Json.maxOpen v ds (by decide) hdecode
    -- The catalog holds definitions from the list and no others.
    have hmem : ∀ d ∈ (NameTable.ofList Definition.name ds).items, d ∈ ds := fun d hd =>
      ((NameTable.find?_ofList_eq_some_iff hnodup).mp (NameTable.find?_of_mem hd)).1
    have hsub : (Definition.allToJson (NameTable.ofList Definition.name ds).items).depth ≤ 127 :=
      Definition.depth_allToJson_le_iff.mpr fun d hd =>
        Definition.depth_allToJson_le_iff.mp hfits d (hmem d hd)
    rw [snapshot, Json.openAtOnce_pretty]
    exact hsub

/-- A snapshot is read as the catalog it was made of if it opens no more than 127 arrays and objects
at once, and is malformed otherwise. A catalog that was read can be read again, and the order in
which definitions are filed leaves no trace in the text. -/
theorem snapshot_readBack (c : Catalog) :
    ofSnapshot c.snapshot =
        (if Json.openAtOnce c.snapshot ≤ 127 then .ok c else .error .malformed) ∧
      (∀ s, ofSnapshot s = .ok c → ofSnapshot c.snapshot = .ok c) ∧
      ∀ ds ds' : List Definition, ds.Perm ds' → (ds.map Definition.name).Nodup →
        snapshot (ds.foldl NameTable.insert c) = snapshot (ds'.foldl NameTable.insert c) := by
  refine ⟨ofSnapshot_snapshot c, fun s hs => ?_, fun ds ds' hperm hnodup => ?_⟩
  · rw [ofSnapshot_snapshot, if_pos (openAtOnce_le_of_ofSnapshot hs)]
  · rw [NameTable.foldl_insert_eq_of_perm hnodup hperm]

/-- A name in boxes, one in the other. -/
def boxed : Nat → TypeRef
  | 0 => .named "Int" []
  | n + 1 => .named "Box" [boxed n]

theorem depth_boxed (n : Nat) : (boxed n).toJson.depth = 2 * n + 1 := by
  induction n with
  | zero => rfl
  | succ n ih =>
    simp only [boxed, TypeRef.toJson, TypeRef.toJsonAll, depth, depthFields, depthItems, ih]
    omega

/-- A definition whose only member is of a boxed type. -/
def boxHolder (n : Nat) : Definition :=
  { name := "Holder \"\n\\", genericArity := 18446744073709551615,
    members := [⟨"Content", boxed n, true, false, true⟩] }

def boxHolders (n : Nat) : Catalog := ⟨[boxHolder n], List.pairwise_singleton _ _⟩

theorem openAtOnce_boxHolders (n : Nat) :
    Json.openAtOnce (boxHolders n).snapshot = 2 * n + 6 := by
  rw [snapshot, Json.openAtOnce_pretty]
  change (Definition.allToJson [boxHolder n]).depth = 2 * n + 6
  rw [Definition.depth_allToJson]
  simp [depth, depthItems, Definition.depth_toJson, Member.depth_toJson, boxHolder, depth_boxed]

def intOnly : Catalog := ⟨[{ name := "Int" }], List.pairwise_singleton _ _⟩

/-- Sixty boxes can be read back and one more cannot. What is read need not be a snapshot. -/
theorem snapshot_readBack_boxHolders :
    ofSnapshot (boxHolders 60).snapshot = .ok (boxHolders 60) ∧
      ofSnapshot (boxHolders 61).snapshot = .error .malformed ∧
      ofSnapshot "[[[\"Int\"]]]" = .ok intOnly ∧
      ofSnapshot intOnly.snapshot = .ok intOnly ∧
      snapshot ([boxHolder 1, { name := "Int" }].foldl NameTable.insert (boxHolders 2)) =
        snapshot ([{ name := "Int" }, boxHolder 1].foldl NameTable.insert (boxHolders 2)) := by
  have hread : ofSnapshot "[[[\"Int\"]]]" = .ok intOnly := by cbv
  have hnodup : ([boxHolder 1, { name := "Int" }].map Definition.name).Nodup := by decide
  refine ⟨?_, ?_, hread, (snapshot_readBack intOnly).2.1 _ hread,
    (snapshot_readBack (boxHolders 2)).2.2 _ _ (.swap _ _ _) hnodup⟩
  · rw [(snapshot_readBack (boxHolders 60)).1, openAtOnce_boxHolders, if_pos (by decide)]
  · rw [(snapshot_readBack (boxHolders 61)).1, openAtOnce_boxHolders, if_neg (by decide)]

end Catalog

end ShapeLedger
