import Mathlib.Data.List.Forall2

/-!
# Computations that may fail

A sequence of steps succeeds when each step does. What every step of a loop keeps, a loop that
succeeds keeps.
-/
namespace TaggedText

variable {ε α β : Type}

theorem bind_eq_ok_iff {x : Except ε α} {f : α → Except ε β} {b : β} :
    x >>= f = .ok b ↔ ∃ a, x = .ok a ∧ f a = .ok b := by
  cases x with
  | error e => simp [bind, Except.bind]
  | ok a => simp [bind, Except.bind]

theorem map_eq_ok_iff {x : Except ε α} {f : α → β} {b : β} :
    x.map f = .ok b ↔ ∃ a, x = .ok a ∧ f a = b := by
  cases x with
  | error e => simp [Except.map]
  | ok a => simp [Except.map]

theorem mapError_eq_ok_iff {ε' : Type} {x : Except ε α} {f : ε → ε'} {a : α} :
    x.mapError f = .ok a ↔ x = .ok a := by
  cases x with
  | error e => simp [Except.mapError]
  | ok b => simp [Except.mapError]

theorem check_bind_eq_ok_iff {x : Except ε Unit} {y : Except ε α} {a : α} :
    (x >>= fun _ => y) = .ok a ↔ x = .ok () ∧ y = .ok a := by
  cases x with
  | error e => simp [bind, Except.bind]
  | ok u => simp [bind, Except.bind]

theorem ne_error_of_eq_ok {x : Except ε α} {a : α} {e : ε} (h : x = .ok a) : x ≠ .error e := by
  rintro rfl
  cases h

/-- What ends no part of a computation early does not end the computation. -/
theorem bind_ne_error {x : Except ε α} {f : α → Except ε β} {e : ε} (hx : x ≠ .error e)
    (hf : ∀ a, f a ≠ .error e) : x >>= f ≠ .error e := by
  cases x with
  | error other => exact fun h => hx (by cases h; rfl)
  | ok a => exact hf a

/-- What only waits for a check succeeds when the check does. -/
theorem exists_bind_pure_iff {x : Except ε Unit} {f : Unit → α} :
    (∃ a, (x >>= fun u => pure (f u)) = .ok a) ↔ x = .ok () := by
  cases x with
  | error e => simp [bind, Except.bind]
  | ok u => simp [bind, Except.bind, pure, Except.pure]

theorem bind_pure_eq_error_iff {x : Except ε α} {f : α → β} {e : ε} :
    (x >>= fun a => pure (f a)) = .error e ↔ x = .error e := by
  cases x with
  | error e => simp [bind, Except.bind]
  | ok a => simp [bind, Except.bind, pure, Except.pure]

theorem toOption_eq_some_iff {x : Except ε α} {a : α} : x.toOption = some a ↔ x = .ok a := by
  cases x with
  | error e => simp [Except.toOption]
  | ok b => simp [Except.toOption]

theorem exists_mapM_eq_ok {f : α → Except ε β} (hf : ∀ a, ∃ b, f a = .ok b) (items : List α) :
    ∃ results, items.mapM f = .ok results := by
  induction items with
  | nil => exact ⟨[], rfl⟩
  | cons a items ih =>
      obtain ⟨b, hb⟩ := hf a
      obtain ⟨results, hresults⟩ := ih
      refine ⟨b :: results, ?_⟩
      rw [List.mapM_cons, hb, hresults]
      rfl

theorem exists_mem_of_mapM_eq_ok {f : α → Except ε β} {items : List α} {results : List β} {b : β}
    (h : items.mapM f = .ok results) (hb : b ∈ results) : ∃ a ∈ items, f a = .ok b := by
  induction items generalizing results with
  | nil =>
      cases h
      cases hb
  | cons a items ih =>
      rw [List.mapM_cons] at h
      have ⟨first, hfirst, h⟩ := bind_eq_ok_iff.mp h
      have ⟨later, hlater, h⟩ := bind_eq_ok_iff.mp h
      cases h
      rcases List.mem_cons.mp hb with rfl | hb
      · exact ⟨a, List.mem_cons_self, hfirst⟩
      · have ⟨a', ha', hread⟩ := ih hlater hb
        exact ⟨a', List.mem_cons_of_mem a ha', hread⟩

theorem exists_eq_ok_of_mapM_eq_ok {f : α → Except ε β} {items : List α} {results : List β} {a : α}
    (h : items.mapM f = .ok results) (ha : a ∈ items) : ∃ b, f a = .ok b := by
  induction items generalizing results with
  | nil => cases ha
  | cons first items ih =>
      rw [List.mapM_cons] at h
      have ⟨b, hb, h⟩ := bind_eq_ok_iff.mp h
      have ⟨later, hlater, _⟩ := bind_eq_ok_iff.mp h
      rcases List.mem_cons.mp ha with rfl | ha
      · exact ⟨b, hb⟩
      · exact ih hlater ha

theorem forall₂_of_mapM_eq_ok {f : α → Except ε β} {items : List α} {results : List β}
    (h : items.mapM f = .ok results) : List.Forall₂ (fun a b => f a = .ok b) items results := by
  induction items generalizing results with
  | nil =>
      cases h
      exact .nil
  | cons a items ih =>
      rw [List.mapM_cons] at h
      have ⟨b, hb, h⟩ := bind_eq_ok_iff.mp h
      have ⟨later, hlater, h⟩ := bind_eq_ok_iff.mp h
      cases h
      exact .cons hb (ih hlater)

/-- The error of a loop is that of the first step that fails. -/
theorem exists_first_of_mapM_eq_error {f : α → Except ε β} {items : List α} {e : ε}
    (h : items.mapM f = .error e) : ∃ before a after, items = before ++ a :: after ∧
      f a = .error e ∧ ∀ earlier ∈ before, ∃ b, f earlier = .ok b := by
  induction items with
  | nil => cases h
  | cons first items ih =>
      rw [List.mapM_cons] at h
      cases hfirst : f first with
      | error e' =>
          rw [hfirst] at h
          cases h
          exact ⟨[], first, items, rfl, hfirst, fun _ hin => absurd hin List.not_mem_nil⟩
      | ok b =>
          rw [hfirst] at h
          cases hitems : items.mapM f with
          | ok results =>
              rw [hitems] at h
              cases h
          | error e' =>
              rw [hitems] at h
              cases h
              obtain ⟨before, a, after, rfl, ha, hbefore⟩ := ih hitems
              refine ⟨first :: before, a, after, rfl, ha, ?_⟩
              exact List.forall_mem_cons.mpr ⟨⟨b, hfirst⟩, hbefore⟩

/-- A change of all items shows in the results, or in the error. -/
theorem mapM_map_eq {f : α → Except ε β} {change : α → α} {onResult : β → β} {onError : ε → ε}
    (h : ∀ a, f (change a) = ((f a).map onResult).mapError onError) (items : List α) :
    (items.map change).mapM f = ((items.mapM f).map (List.map onResult)).mapError onError := by
  induction items with
  | nil => rfl
  | cons a items ih =>
      rw [List.map_cons, List.mapM_cons, List.mapM_cons, h, ih]
      cases f a with
      | error e => rfl
      | ok b =>
          cases items.mapM f with
          | error e => rfl
          | ok results => rfl

theorem foldlM_invariant {f : β → α → Except ε β} (P : β → Prop)
    (step : ∀ b a b', P b → f b a = .ok b' → P b') {items : List α} {b b' : β} (hb : P b)
    (h : items.foldlM f b = .ok b') : P b' := by
  induction items generalizing b with
  | nil =>
      cases h
      exact hb
  | cons a items ih =>
      obtain ⟨c, hc, hrest⟩ := bind_eq_ok_iff.mp ((List.foldlM_cons ..).symm.trans h)
      exact ih (step b a c hb hc) hrest

end TaggedText
