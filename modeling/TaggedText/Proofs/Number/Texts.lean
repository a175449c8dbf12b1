import TaggedText.Proofs.Json.Leaves
import TaggedText.Proofs.Number.Shortest

/-!
# Plain digits and exponents

The plain text of a decimal has only digits in it, and a point if there is a fraction. Without the
point they read as the digits of the decimal, so decimals with other digits have other texts. The
layout of JSON adds a point to a whole number, or an exponent, which no plain text has.
-/
namespace TaggedText

namespace Decimal

variable {d e : Decimal} {c : Char} {n : Nat}

theorem toDigits_mul_pow (h : 0 < n) (m : Nat) :
    Nat.toDigits 10 (n * 10 ^ m) = Nat.toDigits 10 n ++ List.replicate m '0' := by
  induction m with
  | zero => simp
  | succ m ih =>
      have hpos : 0 < n * 10 ^ m := Nat.mul_pos h (Nat.pow_pos (by decide))
      have hzero : Nat.toDigits 10 0 = ['0'] := rfl
      have happend := Nat.toDigits_append_toDigits (b := 10) (d := 0) (by decide) hpos (by decide)
      rw [hzero, Nat.add_zero, ih] at happend
      rw [Nat.pow_succ, ← Nat.mul_assoc, Nat.mul_comm _ 10, ← happend, List.append_assoc,
        List.replicate_succ']

/-- A decimal without a fraction is written as the natural number that it is. -/
theorem plain_eq_toDigits (h : 0 < d.digits) (hscale : 0 ≤ d.scale) :
    d.plain = Nat.toDigits 10 (d.digits * 10 ^ d.scale.toNat) := by
  rw [toDigits_mul_pow h, plain]
  exact if_pos hscale

theorem isDigit_of_mem_plain (hscale : 0 ≤ d.scale) (hc : c ∈ d.plain) : c.isDigit := by
  rw [plain] at hc
  dsimp only at hc
  rw [if_pos hscale] at hc
  rcases List.mem_append.mp hc with hc | hc
  · exact Json.isDigit_of_mem_toDigits hc
  · rw [List.eq_of_mem_replicate hc]
    decide

theorem isDigit_or_eq_of_mem_plain (hc : c ∈ d.plain) : c.isDigit ∨ c = '.' := by
  have hdigit : ∀ {c}, c ∈ Nat.toDigits 10 d.digits → c.isDigit := Json.isDigit_of_mem_toDigits
  by_cases hscale : 0 ≤ d.scale
  · exact .inl (isDigit_of_mem_plain hscale hc)
  rw [plain] at hc
  dsimp only at hc
  rw [if_neg hscale] at hc
  split at hc
  · rcases List.mem_append.mp hc with hc | hc
    · exact .inl (hdigit (List.mem_of_mem_take hc))
    · rcases List.mem_cons.mp hc with rfl | hc
      · exact .inr rfl
      · exact .inl (hdigit (List.mem_of_mem_drop hc))
  · rcases List.mem_cons.mp hc with rfl | hc
    · exact .inl (by decide)
    rcases List.mem_cons.mp hc with rfl | hc
    · exact .inr rfl
    rcases List.mem_append.mp hc with hc | hc
    · rw [List.eq_of_mem_replicate hc]
      exact .inl (by decide)
    · exact .inl (hdigit hc)

theorem ofDigitChars_replicate (n m : Nat) :
    Nat.ofDigitChars 10 (List.replicate m '0') n = n * 10 ^ m := by
  induction m generalizing n with
  | zero => simp [Nat.ofDigitChars]
  | succ m ih =>
      have hnext := ih (10 * n)
      rw [List.replicate_succ, Nat.pow_succ', ← Nat.mul_assoc, Nat.mul_comm n, ← hnext]
      rfl

/-- The digits of a decimal are read from its plain text without the point. -/
theorem ofDigitChars_plain (d : Decimal) :
    Nat.ofDigitChars 10 (d.plain.filter (· ≠ '.')) 0 = d.digits * 10 ^ d.scale.toNat := by
  have hfilter : ∀ {cs : Text}, (∀ c ∈ cs, c ∈ Nat.toDigits 10 d.digits) →
      cs.filter (· ≠ '.') = cs := by
    intro cs hcs
    refine List.filter_eq_self.mpr fun c hc => decide_eq_true ?_
    rintro rfl
    exact absurd (Json.isDigit_of_mem_toDigits (hcs '.' hc)) (by decide)
  have hzeros : ∀ m, (List.replicate m '0').filter (· ≠ '.') = List.replicate m '0' :=
    fun m => List.filter_eq_self.mpr fun c hc => by
      rw [List.eq_of_mem_replicate hc]
      decide
  have hread : Nat.ofDigitChars 10 (Nat.toDigits 10 d.digits) 0 = d.digits :=
    Nat.ofDigitChars_ten_toDigits
  unfold plain
  dsimp only
  split
  · rw [List.filter_append, hfilter fun _ h => h, hzeros, Nat.ofDigitChars_append, hread,
      ofDigitChars_replicate]
  next hscale =>
    have hexponent : d.scale.toNat = 0 := Int.toNat_eq_zero.mpr (by omega)
    rw [hexponent, Nat.pow_zero, Nat.mul_one]
    split
    · rw [List.filter_append, List.filter_cons_of_neg (by decide),
        hfilter fun _ => List.mem_of_mem_take, hfilter fun _ => List.mem_of_mem_drop,
        List.take_append_drop, hread]
    · rw [List.filter_cons_of_pos (by decide), List.filter_cons_of_neg (by decide),
        List.filter_append, hfilter fun _ h => h, hzeros]
      change Nat.ofDigitChars 10 (_ ++ _) 0 = _
      rw [Nat.ofDigitChars_append, ofDigitChars_replicate, Nat.zero_mul, hread]

end Decimal

namespace Json

variable {d e : Decimal}

theorem mem_scientific (d : Decimal) : 'e' ∈ scientific d := by
  unfold scientific
  dsimp only
  generalize (if d.order < 0 then '-' else '+') :: Nat.toDigits 10 d.order.natAbs = exponent
  split
  next h => exact absurd h Nat.toDigits_ne_nil
  next => simp
  next => simp

/-- A fraction of a plain order is written plainly. -/
theorem decimalText_eq_plain (horder : isPlainOrder d.order) (hscale : d.scale < 0) :
    decimalText d = d.plain := by
  rw [decimalText, if_pos horder, if_neg (not_le.mpr hscale), List.append_nil]

theorem decimalText_ne_plain_of_order (h : ¬ isPlainOrder d.order) (e : Decimal) :
    decimalText d ≠ e.plain := by
  intro heq
  have hmem := mem_scientific d
  rw [decimalText, if_neg h] at heq
  rw [heq] at hmem
  rcases Decimal.isDigit_or_eq_of_mem_plain hmem with hdigit | hpoint
  · exact absurd hdigit (by decide)
  · exact absurd hpoint (by decide)

/-- Without a fraction there is a point or an exponent all the same. -/
theorem decimalText_ne_plain_of_whole (hd : 0 ≤ d.scale) (he : 0 ≤ e.scale) :
    decimalText d ≠ e.plain := by
  by_cases horder : isPlainOrder d.order
  · intro heq
    have hmem : '.' ∈ decimalText d := by
      rw [decimalText, if_pos horder, if_pos hd]
      simp
    rw [heq] at hmem
    exact absurd (Decimal.isDigit_of_mem_plain he hmem) (by decide)
  · exact decimalText_ne_plain_of_order horder e

end Json

namespace Number

variable {rank k n : Nat} {scale : Int}

/-- The texts of a tie differ in the last digit. -/
theorem plain_shortest_ne_of_isTie (h : IsTie rank k scale) (hscale : scale < 0) :
    (shortest .even rank).plain ≠ (shortest .away rank).plain := by
  intro heq
  have hread := congrArg (fun cs : Text => Nat.ofDigitChars 10 (cs.filter (· ≠ '.')) 0) heq
  have heven := h.even
  have hzero : ∀ {a : Nat}, (dropZero ⟨a, scale⟩).digits *
      10 ^ (dropZero ⟨a, scale⟩).scale.toNat = if a = 10 then 1 else a := by
    intro a
    have hexponent : scale.toNat = 0 := Int.toNat_eq_zero.mpr hscale.le
    have hnext : (scale + 1).toNat = 0 := Int.toNat_eq_zero.mpr (by omega)
    unfold dropZero
    dsimp only
    split
    · rw [hnext]
      rfl
    · rw [hexponent, Nat.pow_zero, Nat.mul_one]
  rw [Decimal.ofDigitChars_plain, Decimal.ofDigitChars_plain, shortest_of_isTie h,
    shortest_of_isTie h, hzero, hzero, Tie.pick, Tie.pick] at hread
  split_ifs at hread
  all_goals omega

-- `8.0000152587890625` ends halfway between the two sixteenth digits that read back.
example : let rank := nearestRank ((2 ^ 19 + 1) * unitsPerOne) (2 ^ 16)
    (shortest .even rank).plain ≠ (shortest .away rank).plain := by
  decide +kernel

/-- A whole number up to `2 ^ 53` is written with its own digits. -/
theorem plain_shortest_of_whole (tie : Tie) (hrank : 0 < rank) (hn : magnitude rank = n)
    (hle : n ≤ 2 * binade) : (shortest tie rank).plain = Nat.toDigits 10 n := by
  have hscale := scale_shortest_nonneg tie hrank hn
  have hvalue := value_shortest_of_whole tie hrank hn hle
  have hpos := magnitude_pos hrank
  rw [value_eq_natCast hscale, Nat.cast_inj] at hvalue
  rw [hn, Nat.cast_pos, ← hvalue] at hpos
  rw [Decimal.plain_eq_toDigits (Nat.pos_of_mul_pos_right hpos) hscale, hvalue]

/-- The rank nearest to `10 ^ -5`. -/
def leastPlain : Nat :=
  nearestRank unitsPerOne (10 ^ 5)

theorem lt_magnitude_leastPlain : 10 ^ (-5 : ℤ) < magnitude leastPlain := by
  have hunits : ¬ units leastPlain * 10 ^ 5 ≤ unitsPerOne := by decide +kernel
  have hdiv := mt (div_le_zpow_neg_iff unitsPerOne_pos).mp hunits
  exact not_le.mp hdiv

theorem lowEnd_leastPlain_lt : lowEnd leastPlain < 10 ^ (-5 : ℤ) := by
  have hunits : ¬ 2 * unitsPerOne ≤ (units (leastPlain - 1) + units leastPlain) * 10 ^ 5 := by
    decide +kernel
  have hone : 0 < 2 * unitsPerOne := Nat.mul_pos two_pos unitsPerOne_pos
  have hdiv := mt (zpow_neg_le_div_iff hone).mp hunits
  rw [lowEnd_eq, ← not_le]
  exact_mod_cast hdiv

theorem shortest_leastPlain : shortest .even leastPlain = ⟨1, -5⟩ := by
  decide +kernel

theorem digits_shortest_pos (tie : Tie) (hrank : 0 < rank) : 0 < (shortest tie rank).digits := by
  have hpos := (readsBack_shortest tie hrank).pos hrank
  refine Nat.pos_of_ne_zero fun hzero => ?_
  rw [Decimal.value, hzero, Nat.cast_zero, zero_mul] at hpos
  exact lt_irrefl 0 hpos

/-- Fractions are written plainly from the number nearest to `10 ^ -5` on. -/
theorem isPlainOrder_shortest_iff (hrank : 0 < rank) (hn : ∀ n : Nat, magnitude rank ≠ n) :
    Json.isPlainOrder (shortest .even rank).order ↔ leastPlain ≤ rank := by
  have hreads := readsBack_shortest .even hrank
  obtain ⟨hlow, hhigh⟩ := Decimal.order_bounds (digits_shortest_pos .even hrank)
  have hbase : (1 : ℚ) < 10 := by norm_num
  have hupper : (shortest .even rank).order ≤ 15 := by
    have hlarge : (binade : ℚ) ≤ 10 ^ (16 : ℤ) := by norm_num [binade]
    have hlt := (hlow.trans_lt (hreads.lt_of_not_whole hn)).trans_le hlarge
    have := (zpow_lt_zpow_iff_right₀ hbase).mp hlt
    omega
  have hplain : Json.isPlainOrder (shortest .even rank).order ↔
      -5 ≤ (shortest .even rank).order := by
    simp [Json.isPlainOrder, hupper]
  rw [hplain]
  rcases Nat.lt_trichotomy rank leastPlain with hlt | heq | hlt
  · refine iff_of_false (fun hle => ?_) (Nat.not_le_of_lt hlt)
    have hvalue := hreads.bounds.2.trans (highEnd_le_lowEnd hlt)
    have hpower := (zpow_le_zpow_right₀ hbase.le hle).trans hlow
    exact (hpower.trans hvalue).not_gt lowEnd_leastPlain_lt
  · rw [heq, shortest_leastPlain]
    exact iff_of_true (by decide) le_rfl
  · refine iff_of_true ?_ hlt.le
    have hvalue := (lt_lowEnd hlt).trans_le hreads.bounds.1
    have hpower := (lt_magnitude_leastPlain.trans hvalue).trans hhigh
    have := (zpow_lt_zpow_iff_right₀ hbase).mp hpower
    omega

theorem leastPlain_le_of_whole (hrank : 0 < rank) (hn : magnitude rank = n) :
    leastPlain ≤ rank := by
  have hunits : units leastPlain ≤ unitsPerOne := by decide +kernel
  have hpos := magnitude_pos hrank
  rw [hn, Nat.cast_pos] at hpos
  rw [← strictMono_units.le_iff_le, magnitude_eq_natCast_iff.mp hn]
  exact hunits.trans (Nat.le_mul_of_pos_left unitsPerOne hpos)

/-- A number that is not whole is laid out as its plain text if it is not too small, and if the tie
rule is not asked. -/
theorem decimalText_shortest_eq_plain_iff (hrank : 0 < rank) (hn : ∀ n : Nat, magnitude rank ≠ n) :
    Json.decimalText (shortest .even rank) = (shortest .away rank).plain ↔
      leastPlain ≤ rank ∧ ∀ k scale, ¬ IsTie rank k scale := by
  have hscale := scale_shortest_neg .even hrank hn
  rw [← isPlainOrder_shortest_iff hrank hn]
  by_cases horder : Json.isPlainOrder (shortest .even rank).order
  · rw [Json.decimalText_eq_plain horder hscale]
    refine ⟨fun heq => ⟨horder, fun k scale htie => ?_⟩, fun h => ?_⟩
    · rw [shortest_of_isTie htie] at hscale
      have hneg := (le_scale_dropZero ⟨_, scale⟩).trans_lt hscale
      exact plain_shortest_ne_of_isTie htie hneg heq
    · rw [shortest_away_eq_even hrank h.2]
  · exact iff_of_false (Json.decimalText_ne_plain_of_order horder _) fun h => horder h.1

end Number

end TaggedText
