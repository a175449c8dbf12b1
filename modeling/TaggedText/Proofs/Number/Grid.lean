import TaggedText.Number.Shortest
import TaggedText.Proofs.Number.Magnitude

/-!
# Digits on one grid

A grid holds the multiples of a power of ten. What the search for digits decides on one grid in
whole half units is told here in rational numbers: of the two multiples around a magnitude it takes
one that reads back, the nearer of two, and the tie rule is asked only if both are equally far.
-/
namespace TaggedText.Number

variable {tie : Tie} {rank k n : Nat} {scale : Int}

theorem grid_pos (scale : Int) : 0 < (grid scale).1 :=
  Nat.pow_pos (by decide)

theorem grid_eq (scale : Int) :
    ((grid scale).2 : ℚ) = 10 ^ scale * (2 * unitsPerOne) * (grid scale).1 := by
  unfold grid
  generalize unitsPerOne = one
  obtain ⟨n, rfl | rfl⟩ := scale.eq_nat_or_neg
  · simp
  · have hpower : ((Nat.pow 10 n : Nat) : ℚ) = 10 ^ n := Nat.cast_pow 10 n
    have hcancel : ((10 : ℚ) ^ n)⁻¹ * 10 ^ n = 1 :=
      inv_mul_cancel₀ (pow_ne_zero n (by norm_num))
    rw [neg_neg, Int.toNat_natCast, hpower, zpow_neg, zpow_natCast, mul_right_comm, hcancel]
    simp

theorem mul_grid_eq (k : Nat) (scale : Int) : ((k * (grid scale).2 : Nat) : ℚ) =
    k * 10 ^ scale * (2 * unitsPerOne) * (grid scale).1 := by
  rw [Nat.cast_mul, grid_eq]
  ring

theorem mul_grid_le_iff {a : Nat} :
    k * (grid scale).2 ≤ a * (grid scale).1 ↔ k * 10 ^ scale ≤ (a : ℚ) / (2 * unitsPerOne) := by
  have hone : (0 : ℚ) < 2 * unitsPerOne := mul_pos two_pos (Nat.cast_pos.mpr unitsPerOne_pos)
  have hfactor : (0 : ℚ) < (grid scale).1 := Nat.cast_pos.mpr (grid_pos scale)
  rw [← Nat.cast_le (α := ℚ), mul_grid_eq, Nat.cast_mul, mul_le_mul_iff_left₀ hfactor,
    le_div_iff₀ hone]

theorem le_mul_grid_iff {a : Nat} :
    a * (grid scale).1 ≤ k * (grid scale).2 ↔ (a : ℚ) / (2 * unitsPerOne) ≤ k * 10 ^ scale := by
  have hone : (0 : ℚ) < 2 * unitsPerOne := mul_pos two_pos (Nat.cast_pos.mpr unitsPerOne_pos)
  have hfactor : (0 : ℚ) < (grid scale).1 := Nat.cast_pos.mpr (grid_pos scale)
  rw [← Nat.cast_le (α := ℚ), mul_grid_eq, Nat.cast_mul, mul_le_mul_iff_left₀ hfactor,
    div_le_iff₀ hone]

theorem magnitude_eq (rank : Nat) :
    magnitude rank = ((2 * units rank : Nat) : ℚ) / (2 * unitsPerOne) := by
  rw [magnitude, Nat.cast_mul, Nat.cast_two, mul_div_mul_left _ _ two_ne_zero]

theorem lowEnd_eq (rank : Nat) :
    lowEnd rank = ((units (rank - 1) + units rank : Nat) : ℚ) / (2 * unitsPerOne) := by
  rw [lowEnd, magnitude, magnitude, ← add_div, div_div, mul_comm, Nat.cast_add]

theorem highEnd_eq (rank : Nat) :
    highEnd rank = ((units rank + units (rank + 1) : Nat) : ℚ) / (2 * unitsPerOne) := by
  rw [highEnd, magnitude, magnitude, ← add_div, div_div, mul_comm, Nat.cast_add]

/-- What the test in half units says. -/
theorem readsBack_iff :
    readsBack rank (grid scale).1 (k * (grid scale).2) ↔ ReadsBack rank (k * 10 ^ scale) := by
  unfold readsBack ReadsBack
  dsimp only
  rw [lowEnd_eq, highEnd_eq]
  split
  · rw [Bool.and_eq_true, decide_eq_true_eq, decide_eq_true_eq, le_mul_grid_iff, mul_grid_le_iff]
  · rw [Bool.and_eq_true, decide_eq_true_eq, decide_eq_true_eq, ← not_le, ← not_le, ← not_le,
      ← not_le, le_mul_grid_iff, mul_grid_le_iff]

/-- The magnitude stands between `k` and `k + 1`. -/
structure Between (rank k : Nat) (scale : Int) : Prop where
  le : k * 10 ^ scale ≤ magnitude rank
  lt : magnitude rank < (k + 1 : Nat) * 10 ^ scale

/-- Which of `k` and `k + 1` is taken if both are equally far. -/
def Tie.pick : Tie → Nat → Nat
  | away, k => k + 1
  | even, k => k + k % 2

/-- Which of `k` and `k + 1` is taken. -/
def choice (tie : Tie) (rank k : Nat) (scale : Int) : Option Nat :=
  if ReadsBack rank (k * 10 ^ scale) then
    if ReadsBack rank ((k + 1 : Nat) * 10 ^ scale) then
      if 2 * magnitude rank < (2 * k + 1) * 10 ^ scale then some k
      else if (2 * k + 1) * 10 ^ scale < 2 * magnitude rank then some (k + 1)
      else some (tie.pick k)
    else some k
  else if ReadsBack rank ((k + 1 : Nat) * 10 ^ scale) then some (k + 1)
  else none

/-- The multiples around a magnitude, in scaled half units. -/
theorem neighbours_units (rank : Nat) (scale : Int) :
    let k := 2 * units rank * (grid scale).1 / (grid scale).2
    k * (grid scale).2 ≤ 2 * units rank * (grid scale).1 ∧
      2 * units rank * (grid scale).1 < (k + 1) * (grid scale).2 := by
  have hstep : 0 < (grid scale).2 :=
    Nat.mul_pos (Nat.pow_pos (by decide)) (Nat.mul_pos two_pos unitsPerOne_pos)
  exact ⟨Nat.div_mul_le_self .., (Nat.div_lt_iff_lt_mul hstep).mp (Nat.lt_succ_self _)⟩

theorem exists_between (rank : Nat) (scale : Int) :
    Between rank (2 * units rank * (grid scale).1 / (grid scale).2) scale := by
  obtain ⟨hle, hlt⟩ := neighbours_units rank scale
  constructor
  · rw [magnitude_eq]
    exact mul_grid_le_iff.mp hle
  · rw [magnitude_eq, ← not_le]
    exact mt mul_grid_le_iff.mpr (Nat.not_le_of_lt hlt)

/-- The distances to the neighbours are compared as twice the magnitude is with the middle. -/
theorem compare_middle (rank k : Nat) (scale : Int) :
    (2 * (2 * units rank * (grid scale).1) < k * (grid scale).2 + (k + 1) * (grid scale).2 ↔
        2 * magnitude rank < (2 * k + 1) * 10 ^ scale) ∧
      (k * (grid scale).2 + (k + 1) * (grid scale).2 < 2 * (2 * units rank * (grid scale).1) ↔
        (2 * k + 1) * 10 ^ scale < 2 * magnitude rank) := by
  have hmiddle : k * (grid scale).2 + (k + 1) * (grid scale).2 = (2 * k + 1) * (grid scale).2 := by
    rw [← Nat.add_mul]
    congr 1
    omega
  have htwice : 2 * magnitude rank = ((2 * (2 * units rank) : Nat) : ℚ) / (2 * unitsPerOne) := by
    rw [magnitude_eq, Nat.cast_mul 2 (2 * units rank), Nat.cast_two, mul_div_assoc]
  have hcast : (2 * k + 1 : ℚ) = (2 * k + 1 : Nat) := by
    push_cast
    rfl
  rw [hmiddle, htwice, hcast, ← Nat.mul_assoc, ← not_le, ← not_le, ← not_le, ← not_le]
  exact ⟨not_congr mul_grid_le_iff, not_congr le_mul_grid_iff⟩

theorem exists_choice (rank : Nat) (scale : Int) :
    ∃ k, Between rank k scale ∧ ∀ tie, digitsOn? tie rank scale = choice tie rank k scale := by
  refine ⟨_, exists_between rank scale, fun tie => ?_⟩
  obtain ⟨hle, hlt⟩ := neighbours_units rank scale
  unfold digitsOn? choice
  generalize hk : 2 * units rank * (grid scale).1 / (grid scale).2 = k at hle hlt ⊢
  obtain ⟨hnear, hfar⟩ := compare_middle rank k scale
  simp only [← readsBack_iff, ← hnear, ← hfar]
  generalize grid scale = g at *
  obtain ⟨factor, step⟩ := g
  dsimp only at *
  rw [hk]
  generalize readsBack rank factor (k * step) = below
  generalize readsBack rank factor ((k + 1) * step) = above
  cases below with
  | false => cases above <;> rfl
  | true =>
      cases above with
      | false => rfl
      | true =>
          have hdown : 2 * units rank * factor - k * step <
              (k + 1) * step - 2 * units rank * factor ↔
              2 * (2 * units rank * factor) < k * step + (k + 1) * step := by omega
          have hup : (k + 1) * step - 2 * units rank * factor <
              2 * units rank * factor - k * step ↔
              k * step + (k + 1) * step < 2 * (2 * units rank * factor) := by omega
          simp only [if_true, hdown, hup]
          cases tie <;> rfl

theorem Between.unique (h : Between rank k scale) (hn : Between rank n scale) : k = n := by
  have hpower : (0 : ℚ) < 10 ^ scale := zpow_pos (by norm_num) scale
  have hkn := Nat.cast_lt.mp (lt_of_mul_lt_mul_right (h.le.trans_lt hn.lt) hpower.le)
  have hnk := Nat.cast_lt.mp (lt_of_mul_lt_mul_right (hn.le.trans_lt h.lt) hpower.le)
  omega

/-- What is chosen reads back. -/
theorem readsBack_of_digitsOn? (h : digitsOn? tie rank scale = some n) :
    ReadsBack rank (n * 10 ^ scale) := by
  obtain ⟨k, -, hchoice⟩ := exists_choice rank scale
  rw [hchoice, choice] at h
  split_ifs at h with hbelow habove hnear hfar habove
  · exact Option.some.inj h ▸ hbelow
  · exact Option.some.inj h ▸ habove
  · rw [← Option.some.inj h]
    cases tie with
    | away => exact habove
    | even =>
        rcases Nat.mod_two_eq_zero_or_one k with hk | hk
        · rwa [Tie.pick, hk]
        · rwa [Tie.pick, hk]
  · exact Option.some.inj h ▸ hbelow
  · exact Option.some.inj h ▸ habove

/-- If any multiple on the grid reads back, then one of the neighbours does. -/
theorem digitsOn?_eq_none_iff (hrank : 0 < rank) :
    digitsOn? tie rank scale = none ↔ ∀ n : Nat, ¬ ReadsBack rank (n * 10 ^ scale) := by
  have hpower : (0 : ℚ) < 10 ^ scale := zpow_pos (by norm_num) scale
  constructor
  · intro h n hn
    obtain ⟨k, hbetween, hchoice⟩ := exists_choice rank scale
    rw [hchoice, choice] at h
    split_ifs at h with hbelow _ _ _ habove
    have hself := ReadsBack.self hrank
    rcases Nat.lt_or_ge k n with hlt | hge
    · refine habove (hself.between hn hbetween.lt.le ?_)
      exact mul_le_mul_of_nonneg_right (Nat.cast_le.mpr hlt) hpower.le
    · refine hbelow (hn.between hself ?_ hbetween.le)
      exact mul_le_mul_of_nonneg_right (Nat.cast_le.mpr hge) hpower.le
  · intro h
    refine Option.eq_none_iff_forall_ne_some.mpr fun n hn => ?_
    exact h n (readsBack_of_digitsOn? hn)

/-- A magnitude on the grid is chosen itself. -/
theorem digitsOn?_of_eq (hrank : 0 < rank) (h : magnitude rank = n * 10 ^ scale) :
    digitsOn? tie rank scale = some n := by
  have hpower : (0 : ℚ) < 10 ^ scale := zpow_pos (by norm_num) scale
  have hn : Between rank n scale := by
    refine ⟨h.ge, h.trans_lt ?_⟩
    exact mul_lt_mul_of_pos_right (Nat.cast_lt.mpr (Nat.lt_succ_self n)) hpower
  obtain ⟨k, hbetween, hchoice⟩ := exists_choice rank scale
  obtain rfl := hbetween.unique hn
  have hself := ReadsBack.self hrank
  rw [h] at hself
  have hmiddle : 2 * magnitude rank < (2 * k + 1) * 10 ^ scale := by
    rw [h]
    linarith
  rw [hchoice, choice, if_pos hself, if_pos hmiddle, ite_self]

/-- The magnitude is halfway between two multiples that both read back. The lower one is even, so
the tie rules take different ones. -/
structure Halfway (rank k : Nat) (scale : Int) : Prop where
  even : k % 2 = 0
  eq : 2 * magnitude rank = (2 * k + 1) * 10 ^ scale
  below : ReadsBack rank (k * 10 ^ scale)
  above : ReadsBack rank ((k + 1 : Nat) * 10 ^ scale)

theorem Halfway.between (h : Halfway rank k scale) : Between rank k scale := by
  have hpower : (0 : ℚ) < 10 ^ scale := zpow_pos (by norm_num) scale
  have heq := h.eq
  constructor
  · linarith
  · push_cast
    linarith

theorem Halfway.rank_pos (h : Halfway rank k scale) : 0 < rank := by
  refine Nat.pos_of_ne_zero ?_
  rintro rfl
  have heq := h.eq
  have hpos : (0 : ℚ) < (2 * k + 1) * 10 ^ scale := by positivity
  rw [magnitude_zero, mul_zero] at heq
  exact hpos.ne heq

theorem Halfway.digitsOn?_eq (h : Halfway rank k scale) (tie : Tie) :
    digitsOn? tie rank scale = some (tie.pick k) := by
  obtain ⟨j, hbetween, hchoice⟩ := exists_choice rank scale
  obtain rfl := hbetween.unique h.between
  rw [hchoice, choice, if_pos h.below, if_pos h.above, if_neg h.eq.not_lt, if_neg h.eq.not_gt]

/-- The tie rules agree where the magnitude is not halfway. -/
theorem digitsOn?_away_eq_even (h : ∀ k, ¬ Halfway rank k scale) :
    digitsOn? .away rank scale = digitsOn? .even rank scale := by
  obtain ⟨k, hbetween, hchoice⟩ := exists_choice rank scale
  rw [hchoice, hchoice, choice, choice]
  split_ifs with hbelow habove hnear hfar
  any_goals rfl
  have hodd : k % 2 = 1 := by
    refine Nat.mod_two_ne_zero.mp fun heven => h k ⟨heven, ?_, hbelow, habove⟩
    exact le_antisymm (not_lt.mp hfar) (not_lt.mp hnear)
  rw [Tie.pick, Tie.pick, hodd]

end TaggedText.Number
