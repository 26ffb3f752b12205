import Mathlib.Data.List.Forall2

/-!
Results that are faults or values, and lists whose items are related one by one.
Two lists that stand in such a relation have items of every position related,
and what is found for each item makes lists that are related again.
-/

namespace ShapeLedger

theorem map_eq_ok_iff {ε α β : Type} {f : α → β} {x : Except ε α} {b : β} :
    x.map f = .ok b ↔ ∃ a, x = .ok a ∧ f a = b := by
  cases x <;> simp [Except.map]

theorem map_eq_error_iff {ε α β : Type} {f : α → β} {x : Except ε α} {e : ε} :
    x.map f = .error e ↔ x = .error e := by
  cases x <;> simp [Except.map]

theorem getElem?_related {α β : Type} {Q : α → β → Prop} {as : List α} {bs : List β}
    (h : List.Forall₂ Q as bs) (i : Nat) : Option.Rel Q as[i]? bs[i]? := by
  induction h generalizing i with
  | nil => exact .none
  | cons hab _ ih =>
    cases i with
    | zero => exact .some hab
    | succ i => simpa using ih i

theorem exists_mem_of_forall₂ {α β : Type} {R : α → β → Prop} {as : List α} {bs : List β}
    (h : List.Forall₂ R as bs) {b : β} (hb : b ∈ bs) : ∃ a ∈ as, R a b := by
  induction h with
  | nil => cases hb
  | @cons a _ as _ hab _ ih =>
    rcases List.mem_cons.mp hb with rfl | hb
    · exact ⟨a, List.mem_cons_self, hab⟩
    · obtain ⟨a', ha', hR⟩ := ih hb
      exact ⟨a', List.mem_cons_of_mem _ ha', hR⟩

theorem exists_mem_of_forall₂_left {α β : Type} {R : α → β → Prop} {as : List α} {bs : List β}
    (h : List.Forall₂ R as bs) {a : α} (ha : a ∈ as) : ∃ b ∈ bs, R a b :=
  exists_mem_of_forall₂ h.flip ha

/-- Results that are found one by one for related items stand side by side. -/
theorem forall₂_transport {α α' ε ε' : Type} {R : α → ε → Prop} {S : α → α' → Prop}
    {R' : α' → ε' → Prop} {Q : ε → ε' → Prop} {as : List α} {es : List ε} {as' : List α'}
    (hR : List.Forall₂ R as es) (hS : List.Forall₂ S as as')
    (step : ∀ a e a', e ∈ es → a' ∈ as' → R a e → S a a' → ∃ e', R' a' e' ∧ Q e e') :
    ∃ es', List.Forall₂ R' as' es' ∧ List.Forall₂ Q es es' := by
  induction hR generalizing as' with
  | nil =>
    cases hS
    exact ⟨[], .nil, .nil⟩
  | @cons a e _ _ ha _ ih =>
    cases hS with
    | @cons _ a' _ as' haa' htail =>
      obtain ⟨e', he', hee'⟩ := step a e a' List.mem_cons_self List.mem_cons_self ha haa'
      obtain ⟨es', hes', hall⟩ := ih htail fun b x b' hx hb' =>
        step b x b' (List.mem_cons_of_mem _ hx) (List.mem_cons_of_mem _ hb')
      exact ⟨e' :: es', .cons he' hes', .cons hee' hall⟩

/-- Two lists whose items meet halfway: what is found for the items at both ends
stands side by side. -/
theorem forall₂_through {α α' β β' γ γ' : Type} {R : α → β → Prop} {S : β → β' → Prop}
    {R' : α' → β' → Prop} {U : α → γ → Prop} {U' : α' → γ' → Prop} {Q : γ → γ' → Prop}
    {as : List α} {xs : List β} {ys : List β'} {bs : List α'} (hR : List.Forall₂ R as xs)
    (hS : List.Forall₂ S xs ys) (hR' : List.Forall₂ R' bs ys)
    (step : ∀ a x y b, x ∈ xs → R a x → S x y → R' b y → ∃ u v, U a u ∧ U' b v ∧ Q u v) :
    ∃ us vs, List.Forall₂ U as us ∧ List.Forall₂ U' bs vs ∧ List.Forall₂ Q us vs := by
  induction hR generalizing ys bs with
  | nil =>
    cases hS
    cases hR'
    exact ⟨[], [], .nil, .nil, .nil⟩
  | @cons a x _ _ ha _ ih =>
    cases hS with
    | @cons _ y _ _ hxy hS =>
      cases hR' with
      | @cons b _ _ _ hb hR' =>
        obtain ⟨u, v, hu, hv, huv⟩ := step a x y b List.mem_cons_self ha hxy hb
        obtain ⟨us, vs, hus, hvs, huvs⟩ := ih hS hR' fun a x y b hx =>
          step a x y b (List.mem_cons_of_mem _ hx)
        exact ⟨u :: us, v :: vs, .cons hu hus, .cons hv hvs, .cons huv huvs⟩

end ShapeLedger
