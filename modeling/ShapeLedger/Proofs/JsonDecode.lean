import ShapeLedger.Json.Decode
import ShapeLedger.Proofs.JsonDepth

/-!
Taking apart what was printed. A decoder is told how many arrays and objects it
may open, and a printed value needs as many as it is deep. So a decoder that
undoes a printer gives a value back if there is room for its depth and fails
otherwise, and decoders of records and lists do so if those of their parts do.
-/

namespace ShapeLedger

theorem Binary64.nearest_le {n : Nat} (h : n ≠ 0) : nearest n ≤ 2 * n := by
  have hunit : 1 <<< (n.log2 + 1 - 53) ≤ n := by
    have hpow : 2 ^ (n.log2 + 1 - 53) ≤ 2 ^ n.log2 := Nat.pow_le_pow_right (by decide) (by omega)
    rw [Nat.one_shiftLeft]
    exact Nat.le_trans hpow (Nat.log2_self_le h)
  have hdown := Nat.div_mul_le_self n (1 <<< (n.log2 + 1 - 53))
  simp only [nearest]
  split
  · omega
  · rw [Nat.succ_mul]
    omega

namespace Json

variable {α : Type}

theorem sources_eq_map (vs : List Plain) : sources vs = vs.map source := by
  induction vs with
  | nil => rfl
  | cons v vs ih => rw [sources, ih, List.map_cons]

/-! ### Numbers that are kept whole -/

theorem le_ofDigitChars (ds : List Char) (n : Nat) : n ≤ Nat.ofDigitChars 10 ds n := by
  induction ds generalizing n with
  | nil => exact Nat.le_refl n
  | cons d ds ih =>
    rw [Nat.ofDigitChars_cons]
    have := ih (10 * n + (d.toNat - '0'.toNat))
    omega

/-- Digits of a number of sixty-four bits are all taken in. -/
theorem Number.takeWhole_of_lt {n : Nat} {ds : List Char}
    (h : Nat.ofDigitChars 10 ds n < UInt64.size) :
    takeWhole n ds = ⟨Nat.ofDigitChars 10 ds n, 0⟩ := by
  induction ds generalizing n with
  | nil => rfl
  | cons d ds ih =>
    have hnext : n * 10 + (d.toNat - 0x30) = 10 * n + (d.toNat - '0'.toNat) := by
      rw [Nat.mul_comm]
      rfl
    rw [Nat.ofDigitChars_cons, ← hnext] at h ⊢
    have hfits : n * 10 + (d.toNat - 0x30) < UInt64.size :=
      Nat.lt_of_le_of_lt (le_ofDigitChars ds _) h
    rw [takeWhole, if_pos hfits, ih h]

theorem Number.inRange_ofNat {n : Nat} (h : n < UInt64.size) : (ofNat n).inRange = true := by
  have hvalue : Nat.ofDigitChars 10 (Nat.toDigits 10 n) 0 = n := Nat.ofDigitChars_ten_toDigits
  have hscaled : (ofNat n).scaled = ⟨n, 0⟩ := by
    have hwhole : takeWhole 0 (Nat.toDigits 10 n) = ⟨n, 0⟩ := by
      rw [takeWhole_of_lt (hvalue.symm ▸ h), hvalue]
    rw [scaled, ofNat, hwhole]
    rfl
  have hone : Binary64.nearest (Nat.pow 10 (0 : Int).toNat) = 1 := by decide
  have hoverflow : 2 * UInt64.size ≤ Binary64.overflow := by decide
  rw [inRange, hscaled]
  dsimp only
  split
  · rfl
  · rename_i hzero
    have hnearest := Binary64.nearest_le (not_or.mp hzero).1
    rw [if_neg (by decide), hone, Nat.mul_one]
    exact decide_eq_true (by omega)

/-! ### Values that are kept whole -/

mutual

theorem depth_le_of_sound {room : Nat} {v : Source} (h : sound room v = true) :
    v.depth ≤ room := by
  cases v with
  | null => exact Nat.zero_le _
  | bool b => exact Nat.zero_le _
  | number n => exact Nat.zero_le _
  | text t => exact Nat.zero_le _
  | array vs =>
    simp only [sound, Bool.and_eq_true, decide_eq_true_eq] at h
    have hitems := depthItems_le_of_sound h.2
    rw [depth]
    omega
  | object fs =>
    simp only [sound, Bool.and_eq_true, decide_eq_true_eq] at h
    have hfields := depthFields_le_of_sound h.2
    rw [depth]
    omega

theorem depthItems_le_of_sound {room : Nat} {vs : List Source}
    (h : soundItems room vs = true) : depthItems vs ≤ room := by
  cases vs with
  | nil => exact Nat.zero_le _
  | cons v vs =>
    simp only [soundItems, Bool.and_eq_true] at h
    exact Nat.max_le.mpr ⟨depth_le_of_sound h.1, depthItems_le_of_sound h.2⟩

theorem depthFields_le_of_sound {room : Nat} {fs : List (Option String × Source)}
    (h : soundFields room fs = true) : depthFields fs ≤ room := by
  cases fs with
  | nil => exact Nat.zero_le _
  | cons f fs =>
    obtain ⟨key, v⟩ := f
    simp only [soundFields, Bool.and_eq_true] at h
    exact Nat.max_le.mpr ⟨depth_le_of_sound h.1.2, depthFields_le_of_sound h.2⟩

end

/-! ### Records -/

theorem textKeys?_sourceFields (fs : List (String × Plain)) :
    textKeys? (sourceFields fs) = some (fs.map fun f => (f.1, source f.2)) := by
  induction fs with
  | nil => rfl
  | cons f fs ih =>
    rw [textKeys?] at ih
    rw [sourceFields, textKeys?, List.mapM_cons, ih]
    rfl

theorem single?_of_nodup {fields : List (String × Source)} (h : (fields.map Prod.fst).Nodup)
    {f : String × Source} (hf : f ∈ fields) : single? fields f.1 = some (some f.2) := by
  have hfilter : fields.filter (fun g => g.1 = f.1) = [f] := by
    induction fields with
    | nil => cases hf
    | cons g gs ih =>
      obtain ⟨hg, hgs⟩ := List.nodup_cons.mp h
      rcases List.mem_cons.mp hf with rfl | hf
      · have hnone : gs.filter (fun g => g.1 = f.1) = [] := by
          refine List.filter_eq_nil_iff.mpr fun x hx heq => hg ?_
          exact of_decide_eq_true heq ▸ List.mem_map_of_mem hx
        rw [List.filter_cons_of_pos (by simp), hnone]
      · have hne : g.1 ≠ f.1 := fun heq => hg (heq ▸ List.mem_map_of_mem hf)
        rw [List.filter_cons_of_neg (by simpa using hne), ih hgs hf]
  rw [single?, hfilter]

theorem mapM_eq_some_map {β : Type} {f : β → Option α} {g : β → α} {bs : List β}
    (h : ∀ b ∈ bs, f b = some (g b)) : bs.mapM f = some (bs.map g) := by
  induction bs with
  | nil => rfl
  | cons b bs ih =>
    obtain ⟨hb, hbs⟩ := List.forall_mem_cons.mp h
    rw [List.mapM_cons, hb, ih hbs]
    rfl

/-- A record that was printed with its fields in order is taken apart into their values. -/
theorem recordFields?_source (fs : List (String × Plain)) (h : (fs.map Prod.fst).Nodup) :
    recordFields? (fs.map Prod.fst) (source (.object fs)) =
      some (fs.map fun f => some (source f.2)) := by
  have hkeys : ((fs.map fun f => (f.1, source f.2)).map Prod.fst).Nodup := by
    rwa [List.map_map]
  rw [source, recordFields?, textKeys?_sourceFields]
  refine (List.mapM_map (g := single? _)).trans (mapM_eq_some_map fun f hf => ?_)
  exact single?_of_nodup hkeys (List.mem_map_of_mem (f := fun f => (f.1, source f.2)) hf)

/-! ### Decoders that undo a printer -/

theorem exists_of_mapM_eq_some {β : Type} {f : β → Option α} {bs : List β} {xs : List α}
    (h : bs.mapM f = some xs) : ∀ x ∈ xs, ∃ b ∈ bs, f b = some x := by
  induction bs generalizing xs with
  | nil =>
    cases h
    exact List.forall_mem_nil _
  | cons b bs ih =>
    rw [List.mapM_cons] at h
    obtain ⟨y, hy, h⟩ := Option.bind_eq_some_iff.mp h
    obtain ⟨ys, hys, h⟩ := Option.bind_eq_some_iff.mp h
    cases h
    refine List.forall_mem_cons.mpr ⟨⟨b, List.mem_cons_self, hy⟩, fun x hx => ?_⟩
    obtain ⟨b', hb', hx⟩ := ih hys x hx
    exact ⟨b', List.mem_cons_of_mem _ hb', hx⟩

/-- What was printed is given back if there is room for it, and nothing is given otherwise. -/
def ReadsBack (decode : Decoder α) (toJson : α → Plain) : Prop :=
  ∀ room x, decode room (source (toJson x)) = if (toJson x).depth ≤ room then some x else none

/-- From a room of `least` on, what is decoded fits into the room when it is printed. -/
def Fits (decode : Decoder α) (toJson : α → Plain) (least : Nat) : Prop :=
  ∀ room v x, least ≤ room → decode room v = some x → (toJson x).depth ≤ room

theorem readsBack_decodeText : ReadsBack decodeText .text := fun _ _ => rfl

theorem fits_decodeText : Fits decodeText .text 0 := fun _ _ _ _ _ => Nat.zero_le _

section

variable {decode : Decoder α} {toJson : α → Plain}

theorem ReadsBack.list (h : ReadsBack decode toJson) :
    ReadsBack (decodeList decode) fun xs => .array (xs.map toJson) := by
  intro room xs
  cases room with
  | zero => rfl
  | succ room =>
    have hitems : ((xs.map toJson).map source).mapM (decode room) =
        if ∀ x ∈ xs, (toJson x).depth ≤ room then some xs else none := by
      induction xs with
      | nil => rfl
      | cons x xs ih =>
        rw [List.map_cons, List.map_cons, List.mapM_cons, h, ih]
        simp only [List.forall_mem_cons]
        by_cases hx : (toJson x).depth ≤ room
        · simp only [hx, if_true, true_and]
          split <;> rfl
        · simp only [hx, if_false, false_and]
          rfl
    rw [source, decodeList, sources_eq_map, hitems]
    simp [depth, depthItems_le_iff]

theorem Fits.list {least : Nat} (h : Fits decode toJson least) :
    Fits (decodeList decode) (fun xs => .array (xs.map toJson)) (least + 1) := by
  intro room v xs hroom hxs
  cases room with
  | zero => omega
  | succ room =>
    cases v with
    | array vs =>
      refine Nat.succ_le_succ (depthItems_le_iff.mpr ?_)
      intro w hw
      obtain ⟨x, hx, rfl⟩ := List.mem_map.mp hw
      obtain ⟨v, -, hv⟩ := exists_of_mapM_eq_some hxs x hx
      exact h room v x (Nat.le_of_succ_le_succ hroom) hv
    | _ => cases hxs

theorem Fits.required {least : Nat} (h : Fits decode toJson least) {room : Nat}
    (hroom : least ≤ room) {v : Option Source} {x : α}
    (hx : required decode room v = some x) : (toJson x).depth ≤ room := by
  cases v with
  | none => cases hx
  | some v => exact h room v x hroom hx

/-- A field that may be left out fits if its default does. -/
theorem Fits.optional {least : Nat} (h : Fits decode toJson least) {default : α} {room : Nat}
    (hroom : least ≤ room) {v : Option Source} {x : α}
    (hx : optional default decode room v = some x) (hdefault : (toJson default).depth ≤ room) :
    (toJson x).depth ≤ room := by
  cases v with
  | none =>
    cases hx
    exact hdefault
  | some v => exact h room v x hroom hx

end

end Json

end ShapeLedger
