import TaggedText.Proofs.Rounding

/-!
# Magnitudes and their neighbours

Each rank is one step above the rank before it, and no step is less than the magnitude divided by
`2 ^ 53`. Every multiple of a power of two by at most `2 ^ 53` has a rank. So the whole numbers up
to there have one, and a magnitude that is not whole is below `2 ^ 52`.
-/
namespace TaggedText.Number

variable {rank other : Nat}

theorem binade_pos : 0 < binade := by decide

theorem exists_unitsPerOne_eq : ∃ exponent, 0 < exponent ∧ unitsPerOne = 2 ^ exponent := by
  have hpower : ∀ e, 0 < e → ∃ exponent, 0 < exponent ∧ Nat.pow 2 e = 2 ^ exponent :=
    fun e he => ⟨e, he, rfl⟩
  unfold unitsPerOne
  exact hpower 1074 (by decide)

theorem unitsPerOne_pos : 0 < unitsPerOne := by
  obtain ⟨exponent, -, hpower⟩ := exists_unitsPerOne_eq
  rw [hpower]
  exact Nat.two_pow_pos exponent

/-- A rank is written in the binade it belongs to. -/
theorem units_binade (exponent : Nat) {offset : Nat} (h : offset < binade) :
    units ((exponent + 1) * binade + offset) = (binade + offset) * 2 ^ exponent := by
  have hquotient : ((exponent + 1) * binade + offset) / binade = exponent + 1 := by
    rw [Nat.add_comm, Nat.add_mul_div_right _ _ binade_pos, Nat.div_eq_of_lt h, Nat.zero_add]
  have hsignificand : (exponent + 1) * binade + offset - exponent * binade = binade + offset := by
    rw [Nat.succ_mul]
    omega
  rw [units, hquotient, Nat.add_sub_cancel, hsignificand]
  rfl

/-- The step to the next rank. -/
theorem units_succ (rank : Nat) : units (rank + 1) = units rank + 2 ^ (rank / binade - 1) := by
  have hdivision := Nat.div_add_mod' rank binade
  have hoffset := Nat.mod_lt rank binade_pos
  generalize rank % binade = offset at hdivision hoffset
  cases hquotient : rank / binade with
  | zero =>
      have hsmall : rank < binade := Nat.lt_of_div_eq_zero binade_pos hquotient
      rw [units_of_lt (by omega), units_of_lt (by omega)]
      rfl
  | succ exponent =>
      rw [hquotient] at hdivision
      rw [← hdivision, units_binade exponent hoffset, Nat.add_sub_cancel]
      by_cases hlast : offset + 1 < binade
      · rw [Nat.add_assoc, units_binade exponent hlast, ← Nat.add_assoc, Nat.succ_mul]
      · have hnext : (exponent + 1) * binade + offset + 1 = (exponent + 1 + 1) * binade + 0 := by
          rw [Nat.succ_mul (exponent + 1)]
          omega
        have hdouble : binade + offset + 1 = 2 * binade := by omega
        rw [hnext, units_binade (exponent + 1) binade_pos, Nat.add_zero, ← Nat.succ_mul,
          Nat.succ_eq_add_one, hdouble, Nat.pow_succ']
        exact (Nat.mul_left_comm ..).trans (Nat.mul_assoc ..).symm

theorem strictMono_units : StrictMono units :=
  strictMono_nat_of_lt_succ fun rank => by
    rw [units_succ]
    exact Nat.lt_add_of_pos_right (Nat.two_pow_pos _)

/-- A magnitude is at most `2 ^ 53` times the step that leads to it. -/
theorem units_succ_le (rank : Nat) :
    units (rank + 1) ≤ 2 * binade * (units (rank + 1) - units rank) := by
  have hdivision := Nat.div_add_mod' rank binade
  have hoffset := Nat.mod_lt rank binade_pos
  generalize rank % binade = offset at hdivision hoffset
  rw [units_succ, Nat.add_sub_cancel_left]
  cases hquotient : rank / binade with
  | zero =>
      have hsmall : rank < binade := Nat.lt_of_div_eq_zero binade_pos hquotient
      rw [units_of_lt (by omega)]
      omega
  | succ exponent =>
      rw [hquotient] at hdivision
      rw [← hdivision, units_binade exponent hoffset, Nat.add_sub_cancel, ← Nat.succ_mul]
      exact Nat.mul_le_mul_right _ (by omega)

/-- Multiples of a power of two. -/
theorem exists_units_eq_mul {significand : Nat} (h : significand ≤ 2 * binade) (exponent : Nat) :
    ∃ rank, units rank = significand * 2 ^ exponent := by
  induction exponent generalizing significand with
  | zero =>
      rcases Nat.lt_or_eq_of_le h with hlt | rfl
      · exact ⟨significand, by rw [units_of_lt hlt, Nat.pow_zero, Nat.mul_one]⟩
      · exact ⟨(1 + 1) * binade + 0, by rw [units_binade 1 binade_pos]; rfl⟩
  | succ exponent ih =>
      by_cases hlow : significand ≤ binade
      · have hdouble : 2 * significand ≤ 2 * binade := Nat.mul_le_mul_left 2 hlow
        obtain ⟨rank, hrank⟩ := ih hdouble
        exact ⟨rank, by rw [hrank, Nat.pow_succ', ← Nat.mul_assoc, Nat.mul_comm 2]⟩
      · rcases Nat.lt_or_eq_of_le h with hlt | rfl
        · have hoffset : significand - binade < binade := by omega
          refine ⟨(exponent + 1 + 1) * binade + (significand - binade), ?_⟩
          rw [units_binade _ hoffset, Nat.add_sub_cancel' (by omega)]
        · refine ⟨(exponent + 1 + 1 + 1) * binade + 0, ?_⟩
          rw [units_binade _ binade_pos, Nat.add_zero, Nat.pow_succ _ (exponent + 1)]
          ring

/-- A whole number up to `2 ^ 53` is the magnitude of a rank. -/
theorem exists_units_eq_whole {n : Nat} (h : n ≤ 2 * binade) :
    ∃ rank, units rank = n * unitsPerOne := by
  obtain ⟨exponent, -, hpower⟩ := exists_unitsPerOne_eq
  rw [hpower]
  exact exists_units_eq_mul h exponent

/-- What is not whole has less than 53 bits before the point. -/
theorem units_lt_of_not_whole (h : units rank % unitsPerOne ≠ 0) :
    units rank < binade * unitsPerOne := by
  obtain ⟨limit, hlimit, hone⟩ := exists_unitsPerOne_eq
  rw [hone] at h ⊢
  by_cases hrank : 2 * binade ≤ rank
  · obtain ⟨significand, exponent, -, hhigh, -, hunits⟩ := exists_units_eq hrank
    have hexponent : exponent < limit := by
      refine Nat.lt_of_not_le fun hle => h ?_
      rw [hunits]
      exact Nat.mod_eq_zero_of_dvd (Dvd.dvd.mul_left (Nat.pow_dvd_pow 2 hle) significand)
    have hpower : 2 * 2 ^ exponent ≤ 2 ^ limit := by
      rw [← Nat.pow_succ']
      exact Nat.pow_le_pow_right (by decide) hexponent
    calc units rank = significand * 2 ^ exponent := hunits
      _ < 2 * binade * 2 ^ exponent := Nat.mul_lt_mul_of_pos_right hhigh (Nat.two_pow_pos exponent)
      _ = binade * (2 * 2 ^ exponent) := by rw [Nat.mul_comm 2, Nat.mul_assoc]
      _ ≤ binade * 2 ^ limit := Nat.mul_le_mul_left binade hpower
  · have hsmall : rank < 2 * binade := Nat.lt_of_not_le hrank
    have htwo : 2 ≤ 2 ^ limit := Nat.le_self_pow (Nat.ne_of_gt hlimit) 2
    rw [units_of_lt hsmall]
    exact hsmall.trans_le ((Nat.mul_comm 2 binade).trans_le (Nat.mul_le_mul_left binade htwo))

/-- The magnitude of a rank. -/
def magnitude (rank : Nat) : ℚ :=
  units rank / unitsPerOne

/-- Halfway between a rank and the one before it. -/
def lowEnd (rank : Nat) : ℚ :=
  (magnitude (rank - 1) + magnitude rank) / 2

/-- Halfway between a rank and the next. -/
def highEnd (rank : Nat) : ℚ :=
  (magnitude rank + magnitude (rank + 1)) / 2

/-- What is read as the rank: all that lies between the midpoints, and the midpoints themselves if
the rank is even. -/
def ReadsBack (rank : Nat) (x : ℚ) : Prop :=
  if rank % 2 = 0 then lowEnd rank ≤ x ∧ x ≤ highEnd rank else lowEnd rank < x ∧ x < highEnd rank

instance (rank : Nat) (x : ℚ) : Decidable (ReadsBack rank x) :=
  inferInstanceAs (Decidable (if rank % 2 = 0 then lowEnd rank ≤ x ∧ x ≤ highEnd rank
    else lowEnd rank < x ∧ x < highEnd rank))

theorem strictMono_magnitude : StrictMono magnitude := by
  intro a b hab
  have hone : (0 : ℚ) < unitsPerOne := Nat.cast_pos.mpr unitsPerOne_pos
  exact div_lt_div_of_pos_right (Nat.cast_lt.mpr (strictMono_units hab)) hone

theorem magnitude_zero : magnitude 0 = 0 := by
  rw [magnitude, units_eq_zero_iff.mpr rfl, Nat.cast_zero, zero_div]

theorem magnitude_pos (h : 0 < rank) : 0 < magnitude rank :=
  magnitude_zero ▸ strictMono_magnitude h

theorem magnitude_eq_zero_iff : magnitude rank = 0 ↔ rank = 0 := by
  rw [← magnitude_zero, strictMono_magnitude.injective.eq_iff]

theorem magnitude_eq_natCast_iff {n : Nat} : magnitude rank = n ↔ units rank = n * unitsPerOne := by
  have hone : (unitsPerOne : ℚ) ≠ 0 := Nat.cast_ne_zero.mpr unitsPerOne_pos.ne'
  rw [magnitude, div_eq_iff hone]
  exact_mod_cast Iff.rfl

theorem units_mod_ne_zero (h : ∀ n : Nat, magnitude rank ≠ n) : units rank % unitsPerOne ≠ 0 := by
  intro hmod
  refine h (units rank / unitsPerOne) (magnitude_eq_natCast_iff.mpr ?_)
  exact (Nat.div_mul_cancel (Nat.dvd_of_mod_eq_zero hmod)).symm

theorem lowEnd_lt (h : 0 < rank) : lowEnd rank < magnitude rank := by
  have hlt := strictMono_magnitude (Nat.sub_one_lt_of_lt h)
  unfold lowEnd
  linarith

theorem lt_lowEnd (h : other < rank) : magnitude other < lowEnd rank := by
  have hlt := strictMono_magnitude (Nat.sub_one_lt_of_lt h)
  have hle := strictMono_magnitude.monotone (Nat.le_sub_one_of_lt h)
  unfold lowEnd
  linarith

theorem lt_highEnd (rank : Nat) : magnitude rank < highEnd rank := by
  have hlt := strictMono_magnitude (Nat.lt_succ_self rank)
  unfold highEnd
  linarith

theorem highEnd_lt (h : rank < other) : highEnd rank < magnitude other := by
  have hlt := strictMono_magnitude (Nat.lt_succ_self rank)
  have hle := strictMono_magnitude.monotone (Nat.succ_le_of_lt h)
  unfold highEnd
  linarith

theorem highEnd_le_lowEnd (h : rank < other) : highEnd rank ≤ lowEnd other := by
  have hthis := strictMono_magnitude.monotone (Nat.le_sub_one_of_lt h)
  have hnext := strictMono_magnitude.monotone (Nat.succ_le_of_lt h)
  unfold highEnd lowEnd
  linarith

namespace ReadsBack

variable {x y z : ℚ}

theorem bounds (h : ReadsBack rank x) : lowEnd rank ≤ x ∧ x ≤ highEnd rank := by
  unfold ReadsBack at h
  split at h
  · exact h
  · exact h.imp le_of_lt le_of_lt

theorem of_lt (hlow : lowEnd rank < x) (hhigh : x < highEnd rank) : ReadsBack rank x := by
  unfold ReadsBack
  split
  · exact ⟨hlow.le, hhigh.le⟩
  · exact ⟨hlow, hhigh⟩

theorem between (hx : ReadsBack rank x) (hy : ReadsBack rank y) (hxz : x ≤ z) (hzy : z ≤ y) :
    ReadsBack rank z := by
  by_cases heven : rank % 2 = 0
  · rw [ReadsBack, if_pos heven] at hx hy ⊢
    exact ⟨hx.1.trans hxz, hzy.trans hy.2⟩
  · rw [ReadsBack, if_neg heven] at hx hy ⊢
    exact ⟨hx.1.trans_le hxz, hzy.trans_lt hy.2⟩

theorem self (h : 0 < rank) : ReadsBack rank (magnitude rank) :=
  of_lt (lowEnd_lt h) (lt_highEnd rank)

theorem pos (h : ReadsBack rank x) (hrank : 0 < rank) : 0 < x := by
  have hlow := lt_lowEnd hrank
  rw [magnitude_zero] at hlow
  exact hlow.trans_le h.bounds.1

/-- No other magnitude is read as the rank. -/
theorem eq (h : ReadsBack rank (magnitude other)) : other = rank := by
  obtain ⟨hlow, hhigh⟩ := h.bounds
  rcases Nat.lt_trichotomy other rank with hlt | heq | hlt
  · exact absurd hlow (lt_lowEnd hlt).not_ge
  · exact heq
  · exact absurd hhigh (highEnd_lt hlt).not_ge

/-- A whole number up to `2 ^ 53` is read as itself only. -/
theorem eq_natCast {n : Nat} (h : ReadsBack rank n) (hn : n ≤ 2 * binade) :
    magnitude rank = n := by
  obtain ⟨other, hother⟩ := exists_units_eq_whole hn
  have hmagnitude := magnitude_eq_natCast_iff.mpr hother
  rw [← hmagnitude] at h
  rw [← h.eq, hmagnitude]

end ReadsBack

end TaggedText.Number
