import ShapeLedger.Proofs.Walk

/-!
The nesting limit is only a guard. Under two limits the walk looks at the same
types in the same order, with the same types open, until it comes to one that
the lower limit does not let it open. So a fingerprint that is found under some
limit is the same under every higher one, and so is every fault but the one of
the limit itself.
-/

namespace ShapeLedger

/-- The fault of a walk that the limit stops. -/
inductive ShapeError.OfLimit (limit : Nat) : ShapeError → Prop
  | intro (name : String) : OfLimit limit (.depthLimitExceeded name limit)

theorem UpTo.stopped_or_eq {α : Type} {limit : Nat} {x y : Except ShapeError α}
    (h : UpTo (ShapeError.OfLimit limit) x y) :
    (∃ name, x = .error (.depthLimitExceeded name limit)) ∨ x = y := by
  cases h with
  | same => exact .inr rfl
  | fault he =>
    cases he with
    | intro name => exact .inl ⟨name, rfl⟩

/-- The same settings with another limit. -/
def Config.withLimit (cfg : Config) (limit : Nat) : Config :=
  { cfg with maxGenericNesting := limit }

namespace Descriptor

variable {c : Catalog} {cfg : Config}

theorem expand_upTo_limit {low high : Nat} (h : low ≤ high) (path : Path) (d : Descriptor)
    (hd : d.From c) :
    UpTo (ShapeError.OfLimit low) (d.expand c (cfg.withLimit low) path hd)
      (d.expand c (cfg.withLimit high) path hd) := by
  -- The induction follows the walk under the lower limit, which never goes further.
  refine walkInduction (P := fun path d => ∀ hd : d.From c,
    UpTo (ShapeError.OfLimit low) (d.expand c (cfg.withLimit low) path hd)
      (d.expand c (cfg.withLimit high) path hd)) (cfg.withLimit low)
    (fun path d _ arguments members hd => ?_) path d hd hd
  refine expand_upTo hd rfl rfl (fun _ => arguments) (fun room => ?_) fun _ => .inl (.intro _)
  exact ⟨Nat.lt_of_lt_of_le room h, fun _ _ _ m _ v => members room m v⟩

end Descriptor

namespace Catalog

variable {c : Catalog} {cfg : Config} {r : TypeRef}

theorem expansion_upTo_limit {low high : Nat} (h : low ≤ high) :
    UpTo (ShapeError.OfLimit low) (c.expansion (cfg.withLimit low) r)
      (c.expansion (cfg.withLimit high) r) := by
  cases hd : r.resolve c [] entryPoint with
  | error err =>
    rw [expansion_of_error hd, expansion_of_error hd]
    exact .same _
  | ok d =>
    rw [expansion_of_ok hd, expansion_of_ok hd]
    exact Descriptor.expand_upTo_limit h _ _ _

/-- Raising the limit leaves every result as it is, a fingerprint or a fault, but for the fault
of the limit. -/
theorem fingerprint_of_limit_le (c : Catalog) (cfg : Config) (r : TypeRef) {low high : Nat}
    (h : low ≤ high) :
    ((∃ name, c.fingerprint (cfg.withLimit low) r = .error (.depthLimitExceeded name low)) ∨
        c.fingerprint (cfg.withLimit low) r = c.fingerprint (cfg.withLimit high) r) ∧
      ((∃ name, c.memberFingerprint (cfg.withLimit low) r =
          .error (.depthLimitExceeded name low)) ∨
        c.memberFingerprint (cfg.withLimit low) r = c.memberFingerprint (cfg.withLimit high) r) ∧
      (∀ s, c.fingerprint (cfg.withLimit low) r = .ok s →
        c.fingerprint (cfg.withLimit high) r = .ok s) ∧
      ∀ s, c.memberFingerprint (cfg.withLimit low) r = .ok s →
        c.memberFingerprint (cfg.withLimit high) r = .ok s := by
  have hall : UpTo (ShapeError.OfLimit low) (c.expansion (cfg.withLimit low) r)
      (c.expansion (cfg.withLimit high) r) := expansion_upTo_limit h
  have hbody := hall.map Expansion.body
  have hrender := hall.map Expansion.render
  exact ⟨hbody.stopped_or_eq, hrender.stopped_or_eq, fun s => hbody.eq_ok, fun s => hrender.eq_ok⟩

/-- A box of values of any type, and a root with a byte in two boxes. -/
def nestedBoxes : Catalog :=
  ⟨[{ name := "Box", genericArity := 1, members := [⟨"Content", .param 0, false, true, true⟩] },
    { name := "Byte" },
    { name := "Root", members :=
      [⟨"Item", .named "Box" [.named "Box" [.named "Byte" []]], false, true, true⟩] }],
    List.pairwise_map.mp (show ["Box", "Byte", "Root"].Pairwise (· < ·) by decide)⟩

/-- Two boxes are too many for a limit of one, and a limit of two does as well as one of
sixty-four. -/
theorem fingerprint_nestedBoxes_of_limit :
    nestedBoxes.fingerprint (Config.withLimit {} 1) (.named "Root" []) =
        .error (.depthLimitExceeded "Box`1" 1) ∧
      2 ≤ 64 ∧
      nestedBoxes.fingerprint (Config.withLimit {} 2) (.named "Root" []) =
        .ok "Box`1(Box`1(Byte-Content)-Content)-Item" ∧
      nestedBoxes.fingerprint (Config.withLimit {} 64) (.named "Root" []) =
        .ok "Box`1(Box`1(Byte-Content)-Content)-Item" := by
  have hfail : nestedBoxes.fingerprint (Config.withLimit {} 1) (.named "Root" []) =
      .error (.depthLimitExceeded "Box`1" 1) := by cbv
  have hlow : nestedBoxes.fingerprint (Config.withLimit {} 2) (.named "Root" []) =
      .ok "Box`1(Box`1(Byte-Content)-Content)-Item" := by cbv
  have hsame := fingerprint_of_limit_le nestedBoxes {} (.named "Root" []) (show 2 ≤ 64 by decide)
  exact ⟨hfail, by decide, hlow, hsame.2.2.1 _ hlow⟩

end Catalog

end ShapeLedger
