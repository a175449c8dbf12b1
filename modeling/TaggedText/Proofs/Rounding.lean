import Mathlib
import TaggedText.Number

/-!
# Rounding what is exact

A quotient without remainder is not rounded, so a magnitude that has a rank is rounded to that
rank: it has no more significant bits than its exponent leaves. The number nearest to the integer
that a whole number is, is therefore that number again, but for the sign of a zero.
-/
namespace TaggedText.Number

/-- A quotient without remainder. -/
theorem roundDiv_mul (q : Nat) {den : Nat} (hden : 0 < den) : roundDiv (q * den) den = q := by
  have hquotient : q * den / den = q := Nat.mul_div_cancel q hden
  have hremainder : q * den % den = 0 := Nat.mul_mod_left q den
  rw [roundDiv, hquotient, hremainder, Nat.mul_zero, if_pos hden]

theorem binade_eq : binade = 2 ^ 52 := rfl

/-- Past the first two binades, a rank is a significand of 53 bits and an exponent. -/
theorem exists_units_eq {rank : Nat} (h : 2 * binade ≤ rank) :
    ∃ significand exponent, binade ≤ significand ∧ significand < 2 * binade ∧
      rank = exponent * binade + significand ∧ units rank = significand * 2 ^ exponent := by
  have hbinade : 0 < binade := by decide
  have hquotient : 2 ≤ rank / binade := (Nat.le_div_iff_mul_le hbinade).mpr h
  have hdivision := Nat.div_add_mod rank binade
  have hremainder := Nat.mod_lt rank hbinade
  have hexponent : rank / binade - 1 + 1 = rank / binade := by omega
  have hsplit : rank = (rank / binade - 1) * binade + (binade + rank % binade) := by
    rw [← Nat.add_assoc, ← Nat.succ_mul, Nat.succ_eq_add_one, hexponent, Nat.mul_comm, hdivision]
  refine ⟨binade + rank % binade, rank / binade - 1, ?_, ?_, hsplit, ?_⟩
  · omega
  · omega
  · have hsignificand : rank - (rank / binade - 1) * binade = binade + rank % binade := by omega
    rw [units, hsignificand]
    rfl

/-- The exponent of a magnitude is that of its leading bit. -/
theorem log2_mul_two_pow {significand : Nat} (exponent : Nat) (hlow : binade ≤ significand)
    (hhigh : significand < 2 * binade) : (significand * 2 ^ exponent).log2 = 52 + exponent := by
  have hpower : 0 < 2 ^ exponent := Nat.two_pow_pos exponent
  have hpositive : 0 < significand := Nat.lt_of_lt_of_le (by decide) hlow
  rw [Nat.log2_eq_iff (Nat.mul_ne_zero (Nat.ne_of_gt hpositive) (Nat.ne_of_gt hpower))]
  constructor
  · rw [Nat.pow_add]
    exact Nat.mul_le_mul_right _ hlow
  · have hbound := Nat.mul_lt_mul_of_pos_right hhigh hpower
    rwa [binade_eq, ← Nat.pow_succ', ← Nat.pow_add, Nat.succ_add] at hbound

/-- A magnitude is rounded to its own rank. -/
theorem nearestRank_units (rank : Nat) : nearestRank (units rank) 1 = rank := by
  by_cases h : 2 * binade ≤ rank
  · have ⟨significand, exponent, hlow, hhigh, hrank, hunits⟩ := exists_units_eq h
    have hround := roundDiv_mul significand (Nat.two_pow_pos exponent)
    rw [nearestRank, hunits, Nat.div_one, Nat.one_mul, log2_mul_two_pow exponent hlow hhigh,
      Nat.add_sub_cancel_left]
    exact (congrArg (exponent * binade + ·) hround).trans hrank.symm
  · have hsmall : rank < 2 * binade := Nat.lt_of_not_le h
    have hunits : units rank = rank := units_of_lt hsmall
    have hlog : rank.log2 ≤ 52 := by
      by_cases hzero : rank = 0
      · rw [hzero]
        decide
      · exact Nat.le_of_lt_succ ((Nat.log2_lt hzero).mpr hsmall)
    have hround := roundDiv_mul rank Nat.one_pos
    rw [nearestRank, hunits, Nat.div_one, Nat.one_mul, Nat.sub_eq_zero_of_le hlog, Nat.zero_mul,
      Nat.zero_add]
    rwa [Nat.mul_one] at hround

theorem units_eq_zero_iff {rank : Nat} : units rank = 0 ↔ rank = 0 := by
  constructor
  · intro h
    have hrank := nearestRank_units rank
    rw [h] at hrank
    exact hrank.symm
  · rintro rfl
    decide

/-- The number nearest to the integer that a number is, is that number but for the sign of a
zero. -/
theorem same_ofInt {n : Number} {i : Int} (h : n.toInt? = some i) : (ofInt i).same n = true := by
  cases n with
  | nan => cases h
  | infinite negative => cases h
  | finite negative rank =>
      rw [toInt?, Option.ite_none_right_eq_some] at h
      obtain ⟨hwhole, hi⟩ := h
      have hunits : units rank = units rank / unitsPerOne * unitsPerOne :=
        (Nat.div_mul_cancel (Nat.dvd_of_mod_eq_zero hwhole)).symm
      dsimp only at hi
      generalize units rank / unitsPerOne = magnitude at hi hunits
      have hi := Option.some.inj hi
      have habs : i.natAbs = magnitude := by
        rw [← hi]
        split
        · rw [Int.natAbs_neg, Int.natAbs_natCast]
        · rw [Int.natAbs_natCast]
      have hsign : i < 0 ↔ negative = true ∧ magnitude ≠ 0 := by
        rw [← hi]
        split
        next hnegative => simp [hnegative]; omega
        next hpositive => simp [hpositive]
      have hzero : magnitude = 0 → rank.val = 0 := by
        rintro rfl
        rw [Nat.zero_mul] at hunits
        exact units_eq_zero_iff.mp hunits
      rw [ofInt, ofRatio, habs, ← hunits, nearestRank_units, ofRank, dif_pos rank.isLt, same]
      by_cases hmagnitude : magnitude = 0
      · simp [hzero hmagnitude]
      · cases negative <;> simp [hsign, hmagnitude]

theorem same_ofInt_self (i : Int) : (ofInt i).same (ofInt i) = true := by
  rw [ofInt, ofRatio, ofRank]
  split
  next => simp [same]
  next => simp [same]

end TaggedText.Number
