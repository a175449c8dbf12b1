import TaggedText.Proofs.Number.Grid

/-!
# The shortest digits

The search for digits goes from the order of a magnitude to finer grids. Two neighbours on the
seventeenth grid are closer to each other than the magnitude is to a midpoint, so at least one of
them reads back and the search ends. What it finds stands on the coarsest grid that has any digits
which read back, whatever the tie rule; the rule decides only between two that are equally far.
-/
namespace TaggedText

namespace Decimal

/-- The value of a decimal. -/
def value (d : Decimal) : ℚ :=
  d.digits * 10 ^ d.scale

theorem digitCount_pos (n : Nat) : 0 < digitCount n :=
  Nat.length_toDigits_pos

theorem lt_pow_digitCount (n : Nat) : n < 10 ^ digitCount n :=
  (Nat.length_toDigits_le_iff (by decide) (digitCount_pos n)).mp le_rfl

theorem pow_digitCount_le {n : Nat} (h : 0 < n) : 10 ^ (digitCount n - 1) ≤ n := by
  rcases Nat.eq_zero_or_pos (digitCount n - 1) with hzero | hpos
  · rw [hzero, Nat.pow_zero]
    exact h
  · refine Nat.le_of_not_lt fun hlt => ?_
    have hle : digitCount n ≤ digitCount n - 1 :=
      (Nat.length_toDigits_le_iff (by decide) hpos).mpr hlt
    omega

theorem order_eq (d : Decimal) : d.order = (digitCount d.digits - 1 : Nat) + d.scale := by
  have hpos := digitCount_pos d.digits
  rw [order]
  omega

/-- The order of a decimal is that of its value. -/
theorem order_bounds {d : Decimal} (h : 0 < d.digits) :
    10 ^ d.order ≤ d.value ∧ d.value < 10 ^ (d.order + 1) := by
  have hscale : (0 : ℚ) < 10 ^ d.scale := zpow_pos (by norm_num) d.scale
  have hlow : (10 ^ (digitCount d.digits - 1) : ℚ) ≤ d.digits :=
    mod_cast pow_digitCount_le h
  have hhigh : (d.digits : ℚ) < 10 ^ digitCount d.digits := mod_cast lt_pow_digitCount d.digits
  have hnext : d.order + 1 = digitCount d.digits + d.scale := by
    rw [order]
    omega
  rw [hnext, order_eq, zpow_add₀ (by norm_num), zpow_add₀ (by norm_num), zpow_natCast, zpow_natCast]
  exact ⟨mul_le_mul_of_nonneg_right hlow hscale.le, mul_lt_mul_of_pos_right hhigh hscale⟩

end Decimal

namespace Number

variable {tie : Tie} {rank k n : Nat} {scale top : Int} {d : Decimal}

theorem value_dropZero (d : Decimal) : (dropZero d).value = d.value := by
  unfold dropZero
  split
  next h =>
    rw [Decimal.value, Decimal.value, h, zpow_add₀ (by norm_num)]
    push_cast
    ring
  next => rfl

theorem zpow_neg_le_div_iff {m u one : Nat} (hone : 0 < one) :
    (10 : ℚ) ^ (-m : ℤ) ≤ u / one ↔ one ≤ u * 10 ^ m := by
  rw [zpow_neg, zpow_natCast, ← one_div, div_le_div_iff₀ (by positivity) (by positivity), one_mul]
  exact_mod_cast Iff.rfl

theorem div_le_zpow_neg_iff {m u one : Nat} (hone : 0 < one) :
    (u : ℚ) / one ≤ 10 ^ (-m : ℤ) ↔ u * 10 ^ m ≤ one := by
  rw [zpow_neg, zpow_natCast, ← one_div, div_le_div_iff₀ (by positivity) (by positivity), one_mul]
  exact_mod_cast Iff.rfl

theorem decimalOrder_bounds (h : 0 < rank) :
    10 ^ decimalOrder rank ≤ magnitude rank ∧ magnitude rank < 10 ^ (decimalOrder rank + 1) := by
  have hone := unitsPerOne_pos
  have hunits : 0 < units rank := Nat.pos_of_ne_zero (units_eq_zero_iff.not.mpr h.ne')
  unfold decimalOrder magnitude
  generalize units rank = u at *
  generalize unitsPerOne = one at *
  have hcast : (0 : ℚ) < one := Nat.cast_pos.mpr hone
  dsimp only
  split
  next hle =>
    have hquotient : 0 < u / one := Nat.div_pos hle hone
    have hlow := (Nat.le_div_iff_mul_le hone).mp (Decimal.pow_digitCount_le hquotient)
    have hhigh := (Nat.div_lt_iff_lt_mul hone).mp (Decimal.lt_pow_digitCount (u / one))
    have hpos := Decimal.digitCount_pos (u / one)
    generalize Decimal.digitCount (u / one) = count at *
    have horder : (count : ℤ) - 1 = (count - 1 : Nat) := by omega
    rw [le_div_iff₀ hcast, div_lt_iff₀ hcast, sub_add_cancel, horder, zpow_natCast, zpow_natCast]
    exact ⟨mod_cast hlow, mod_cast hhigh⟩
  next hlt =>
    have hquotient : 0 < one / u := Nat.div_pos (Nat.le_of_not_le hlt) hunits
    have hlow := (Nat.le_div_iff_mul_le hunits).mp (Decimal.pow_digitCount_le hquotient)
    have hhigh := (Nat.div_lt_iff_lt_mul hunits).mp (Decimal.lt_pow_digitCount (one / u))
    have hpos := Decimal.digitCount_pos (one / u)
    generalize Decimal.digitCount (one / u) = count at *
    have hnext : (1 - count : ℤ) = -(count - 1 : Nat) := by omega
    rw [Nat.mul_comm] at hlow hhigh
    split
    next hexact =>
      rw [hnext]
      refine ⟨(zpow_neg_le_div_iff hone).mpr hexact, ?_⟩
      refine ((div_le_zpow_neg_iff hone).mpr hlow).trans_lt ?_
      exact zpow_lt_zpow_right₀ (by norm_num) (by omega)
    next hexact =>
      have hsucc : (-count + 1 : ℤ) = -(count - 1 : Nat) := by omega
      rw [hsucc]
      refine ⟨(zpow_neg_le_div_iff hone).mpr hhigh.le, ?_⟩
      rw [← not_le, zpow_neg_le_div_iff hone]
      exact hexact

/-- A step is at least the magnitude it leads to, divided by `2 ^ 53`. -/
theorem magnitude_succ_le (rank : Nat) :
    magnitude (rank + 1) ≤ 2 * binade * (magnitude (rank + 1) - magnitude rank) := by
  have hone : (0 : ℚ) < unitsPerOne := Nat.cast_pos.mpr unitsPerOne_pos
  have hle := strictMono_units.monotone (Nat.le_succ rank)
  have hunits : (units (rank + 1) : ℚ) ≤ 2 * binade * (units (rank + 1) - units rank) := by
    rw [← Nat.cast_sub hle]
    exact_mod_cast units_succ_le rank
  rw [magnitude, magnitude, ← sub_div, mul_div_assoc']
  exact div_le_div_of_nonneg_right hunits hone.le

/-- Where the grid is finer than the steps, a neighbour reads back. -/
theorem exists_readsBack (h : 0 < rank) (hscale : 2 * binade * 10 ^ scale < magnitude rank) :
    ∃ n : Nat, ReadsBack rank (n * 10 ^ scale) := by
  obtain ⟨before, rfl⟩ := Nat.exists_eq_add_one.mpr h
  obtain ⟨k, ⟨hle, hlt⟩, -⟩ := exists_choice (before + 1) scale
  have hbinade : (0 : ℚ) < 2 * binade := mul_pos two_pos (Nat.cast_pos.mpr binade_pos)
  have hmono := strictMono_magnitude (Nat.lt_succ_self (before + 1))
  have hdown : 10 ^ scale < magnitude (before + 1) - magnitude before :=
    lt_of_mul_lt_mul_left (hscale.trans_le (magnitude_succ_le before)) hbinade.le
  have hup : 10 ^ scale < magnitude (before + 1 + 1) - magnitude (before + 1) :=
    lt_of_mul_lt_mul_left ((hscale.trans hmono).trans_le (magnitude_succ_le (before + 1)))
      hbinade.le
  push_cast at hlt
  by_cases hnear : 2 * (magnitude (before + 1) - k * 10 ^ scale) ≤ 10 ^ scale
  · refine ⟨k, .of_lt ?_ (hle.trans_lt (lt_highEnd _))⟩
    rw [lowEnd, Nat.add_sub_cancel]
    linarith
  · refine ⟨k + 1, .of_lt ((lowEnd_lt h).trans ?_) ?_⟩
    · push_cast
      linarith
    · rw [highEnd]
      push_cast
      linarith

theorem exists_digitsOn? (tie : Tie) (h : 0 < rank) :
    digitsOn? tie rank (decimalOrder rank - 16) ≠ none := by
  have hpower : (0 : ℚ) < 10 ^ decimalOrder rank := zpow_pos (by norm_num) _
  have hbinade : (2 * binade : ℚ) * 10 ^ (-16 : ℤ) < 1 := by
    norm_num [binade]
  have hscale : 2 * binade * 10 ^ (decimalOrder rank - 16) < magnitude rank := by
    calc (2 * binade * 10 ^ (decimalOrder rank - 16) : ℚ)
        = 2 * binade * 10 ^ (-16 : ℤ) * 10 ^ decimalOrder rank := by
          rw [sub_eq_add_neg, zpow_add₀ (by norm_num)]
          ring
      _ < 1 * 10 ^ decimalOrder rank := mul_lt_mul_of_pos_right hbinade hpower
      _ ≤ magnitude rank := (one_mul _).trans_le (decimalOrder_bounds h).1
  obtain ⟨n, hn⟩ := exists_readsBack h hscale
  exact fun hnone => (digitsOn?_eq_none_iff h).mp hnone n hn

/-- The digits on the coarsest grid from `top` downwards that has any. -/
structure IsFirst (tie : Tie) (rank : Nat) (top : Int) (d : Decimal) : Prop where
  found : digitsOn? tie rank d.scale = some d.digits
  le : d.scale ≤ top
  coarser : ∀ scale, d.scale < scale → scale ≤ top → digitsOn? tie rank scale = none

theorem isFirst_firstHit (hscale : scale ≤ top) (hn : top - n < scale)
    (h : digitsOn? tie rank scale ≠ none) : IsFirst tie rank top (firstHit tie rank n top) := by
  induction n generalizing top with
  | zero => omega
  | succ n ih =>
      rw [firstHit]
      split
      next digits hdigits =>
        exact ⟨hdigits, le_rfl, fun finer hlt hle => absurd hle (not_le.mpr hlt)⟩
      next hnone =>
        have hne : scale ≠ top := by
          rintro rfl
          exact h hnone
        have hfirst : IsFirst tie rank (top - 1) (firstHit tie rank n (top - 1)) :=
          ih (by omega) (by push_cast at hn; omega)
        refine ⟨hfirst.found, by have := hfirst.le; omega, fun finer hlt hle => ?_⟩
        rcases Int.lt_or_eq_of_le hle with hlt' | rfl
        · exact hfirst.coarser finer hlt (by omega)
        · exact hnone

theorem IsFirst.unique {e : Decimal} (hd : IsFirst tie rank top d) (he : IsFirst tie rank top e) :
    d = e := by
  have hfound : ∀ {d e : Decimal}, IsFirst tie rank top d → IsFirst tie rank top e →
      ¬ d.scale < e.scale := by
    intro d e hd he hlt
    cases (hd.coarser e.scale hlt he.le).symm.trans he.found
  have hscale : d.scale = e.scale :=
    le_antisymm (not_lt.mp (hfound he hd)) (not_lt.mp (hfound hd he))
  have hdigits := hd.found
  rw [hscale, he.found] at hdigits
  cases d
  cases e
  simp_all

theorem exists_isFirst (tie : Tie) (h : 0 < rank) :
    ∃ d, IsFirst tie rank (decimalOrder rank) d ∧ shortest tie rank = dropZero d := by
  refine ⟨_, isFirst_firstHit ?_ ?_ (exists_digitsOn? tie h), if_neg h.ne'⟩
  · omega
  · omega

theorem readsBack_shortest (tie : Tie) (h : 0 < rank) :
    ReadsBack rank (shortest tie rank).value := by
  obtain ⟨d, hd, hshortest⟩ := exists_isFirst tie h
  rw [hshortest, value_dropZero]
  exact readsBack_of_digitsOn? hd.found

/-- The magnitude is halfway between two multiples on the first grid where digits read back. -/
structure IsTie (rank k : Nat) (scale : Int) : Prop extends Halfway rank k scale where
  coarser : ∀ coarse, scale < coarse → 10 ^ coarse ≤ magnitude rank →
    ∀ n : Nat, ¬ ReadsBack rank (n * 10 ^ coarse)

theorem le_decimalOrder_iff (h : 0 < rank) :
    scale ≤ decimalOrder rank ↔ 10 ^ scale ≤ magnitude rank := by
  obtain ⟨hle, hlt⟩ := decimalOrder_bounds h
  constructor
  · exact fun hscale => (zpow_le_zpow_right₀ (by norm_num) hscale).trans hle
  · intro hscale
    have hpower : (10 : ℚ) ^ scale < 10 ^ (decimalOrder rank + 1) := hscale.trans_lt hlt
    exact Int.le_of_lt_add_one ((zpow_lt_zpow_iff_right₀ (by norm_num)).mp hpower)

theorem Halfway.scale_le (h : Halfway rank k scale) : scale ≤ decimalOrder rank := by
  rw [le_decimalOrder_iff h.rank_pos]
  have hk : 1 ≤ k := by
    refine Nat.one_le_iff_ne_zero.mpr ?_
    rintro rfl
    have hpos := h.below.pos h.rank_pos
    simp at hpos
  have hpower : (0 : ℚ) < 10 ^ scale := zpow_pos (by norm_num) scale
  calc (10 : ℚ) ^ scale = (1 : Nat) * 10 ^ scale := by rw [Nat.cast_one, one_mul]
    _ ≤ k * 10 ^ scale := mul_le_mul_of_nonneg_right (Nat.cast_le.mpr hk) hpower.le
    _ ≤ magnitude rank := h.between.le

theorem shortest_of_isTie (h : IsTie rank k scale) (tie : Tie) :
    shortest tie rank = dropZero ⟨tie.pick k, scale⟩ := by
  have hrank := h.rank_pos
  obtain ⟨d, hd, hshortest⟩ := exists_isFirst tie hrank
  have hfirst : IsFirst tie rank (decimalOrder rank) ⟨tie.pick k, scale⟩ := by
    refine ⟨h.digitsOn?_eq tie, h.scale_le, fun coarse hlt hle => ?_⟩
    rw [digitsOn?_eq_none_iff hrank]
    exact h.coarser coarse hlt ((le_decimalOrder_iff hrank).mp hle)
  rw [hshortest, hd.unique hfirst]

/-- The tie rule is asked about ties only. -/
theorem shortest_away_eq_even (hrank : 0 < rank) (h : ∀ k scale, ¬ IsTie rank k scale) :
    shortest .away rank = shortest .even rank := by
  obtain ⟨d, hd, haway⟩ := exists_isFirst .away hrank
  obtain ⟨e, he, heven⟩ := exists_isFirst .even hrank
  have hcoarser : ∀ coarse, d.scale < coarse → coarse ≤ decimalOrder rank →
      ∀ n : Nat, ¬ ReadsBack rank (n * 10 ^ coarse) := fun coarse hlt hle =>
    (digitsOn?_eq_none_iff hrank).mp (hd.coarser coarse hlt hle)
  have hnot : ∀ k, ¬ Halfway rank k d.scale := fun k hk => h k d.scale
    ⟨hk, fun coarse hlt hle => hcoarser coarse hlt ((le_decimalOrder_iff hrank).mpr hle)⟩
  have hfirst : IsFirst .even rank (decimalOrder rank) d := by
    refine ⟨digitsOn?_away_eq_even hnot ▸ hd.found, hd.le, fun coarse hlt hle => ?_⟩
    exact (digitsOn?_eq_none_iff hrank).mpr (hcoarser coarse hlt hle)
  rw [haway, heven, hfirst.unique he]

theorem le_scale_dropZero (d : Decimal) : d.scale ≤ (dropZero d).scale := by
  unfold dropZero
  split
  · exact Int.le_of_lt (Int.lt_succ d.scale)
  · exact le_rfl

/-- The value of a decimal without a fraction. -/
theorem value_eq_natCast {d : Decimal} (h : 0 ≤ d.scale) :
    d.value = (d.digits * 10 ^ d.scale.toNat : Nat) := by
  have hscale : d.scale = d.scale.toNat := (Int.toNat_of_nonneg h).symm
  rw [Decimal.value, hscale, zpow_natCast, Int.toNat_natCast]
  push_cast
  rfl

theorem IsFirst.scale_nonneg (h : IsFirst tie rank (decimalOrder rank) d) (hrank : 0 < rank)
    (hn : magnitude rank = n) : 0 ≤ d.scale := by
  have hone : 1 ≤ n := by
    have hpos := magnitude_pos hrank
    rw [hn] at hpos
    exact_mod_cast hpos
  have horder : 0 ≤ decimalOrder rank := by
    rw [le_decimalOrder_iff hrank, zpow_zero, hn]
    exact_mod_cast hone
  have hzero : digitsOn? tie rank 0 = some n :=
    digitsOn?_of_eq hrank (by rw [zpow_zero, mul_one, hn])
  refine not_lt.mp fun hlt => ?_
  cases (h.coarser 0 hlt horder).symm.trans hzero

theorem scale_shortest_nonneg (tie : Tie) (hrank : 0 < rank) (hn : magnitude rank = n) :
    0 ≤ (shortest tie rank).scale := by
  obtain ⟨d, hd, hshortest⟩ := exists_isFirst tie hrank
  rw [hshortest]
  exact (hd.scale_nonneg hrank hn).trans (le_scale_dropZero d)

/-- What is read as a whole number up to `2 ^ 53` is at most one more than `2 ^ 53`. -/
theorem ReadsBack.le_of_whole {x : ℚ} (h : ReadsBack rank x) (hn : magnitude rank = n)
    (hle : n ≤ 2 * binade) : x ≤ (2 * binade + 1 : Nat) := by
  obtain ⟨exponent, -, hone⟩ := exists_unitsPerOne_eq
  have hsmall : binade + 1 ≤ 2 * binade := by decide
  obtain ⟨other, hother⟩ := exists_units_eq_mul hsmall (exponent + 1)
  have hmagnitude : magnitude other = (2 * binade + 2 : Nat) := by
    rw [magnitude_eq_natCast_iff, hother, hone, Nat.pow_succ]
    ring
  have hlt : rank < other := by
    rw [← strictMono_magnitude.lt_iff_lt, hn, hmagnitude]
    exact Nat.cast_lt.mpr (by omega)
  have hnext := strictMono_magnitude.monotone (Nat.succ_le_of_lt hlt)
  have hcast : (n : ℚ) ≤ 2 * binade := mod_cast hle
  have hhigh := h.bounds.2
  rw [hmagnitude] at hnext
  rw [highEnd, hn] at hhigh
  push_cast at hnext ⊢
  linarith

/-- A whole number up to `2 ^ 53` has its own digits. -/
theorem value_shortest_of_whole (tie : Tie) (hrank : 0 < rank) (hn : magnitude rank = n)
    (hle : n ≤ 2 * binade) : (shortest tie rank).value = n := by
  obtain ⟨d, hd, hshortest⟩ := exists_isFirst tie hrank
  have hscale := hd.scale_nonneg hrank hn
  have hvalue := value_eq_natCast hscale
  rw [hshortest, value_dropZero]
  rcases hscale.lt_or_eq with hpos | hzero
  · have hreads : ReadsBack rank d.value := readsBack_of_digitsOn? hd.found
    have hbound := hreads.le_of_whole hn hle
    rw [hvalue] at hreads hbound ⊢
    -- The number past the bound does not end with a zero.
    have hne : d.digits * 10 ^ d.scale.toNat ≠ 2 * binade + 1 := by
      obtain ⟨m, hm⟩ : ∃ m, d.scale.toNat = m + 1 := ⟨d.scale.toNat - 1, by omega⟩
      rw [hm, Nat.pow_succ, ← Nat.mul_assoc]
      generalize d.digits * 10 ^ m = a
      unfold binade
      norm_num
      omega
    have hsmall : d.digits * 10 ^ d.scale.toNat ≤ 2 * binade := by
      have := Nat.cast_le.mp hbound
      omega
    rw [← hn, hreads.eq_natCast hsmall]
  · have hfound := hd.found
    rw [← hzero, digitsOn?_of_eq hrank (by rw [zpow_zero, mul_one, hn])] at hfound
    rw [Decimal.value, ← Option.some.inj hfound, ← hzero, zpow_zero, mul_one]

theorem not_isTie_of_whole (hn : magnitude rank = n) (hle : n ≤ 2 * binade) :
    ¬ IsTie rank k scale := by
  intro h
  have hpower : (10 : ℚ) ^ scale ≠ 0 := (zpow_pos (by norm_num) scale).ne'
  have hvalue : ∀ tie : Tie, (tie.pick k : ℚ) * 10 ^ scale = n := by
    intro tie
    have hshortest := value_shortest_of_whole tie h.rank_pos hn hle
    rwa [shortest_of_isTie h, value_dropZero] at hshortest
  have hpick : Tie.even.pick k = Tie.away.pick k :=
    Nat.cast_inj.mp (mul_right_cancel₀ hpower ((hvalue .even).trans (hvalue .away).symm))
  have heven := h.even
  rw [Tie.pick, Tie.pick] at hpick
  omega

/-- What is not whole is read from fractions below `2 ^ 52` only. -/
theorem ReadsBack.lt_of_not_whole {x : ℚ} (h : ReadsBack rank x)
    (hn : ∀ n : Nat, magnitude rank ≠ n) : x < binade := by
  have hsmall : binade ≤ 2 * binade := by decide
  obtain ⟨other, hother⟩ := exists_units_eq_whole hsmall
  have hlt : rank < other := by
    rw [← strictMono_units.lt_iff_lt, hother]
    exact units_lt_of_not_whole (units_mod_ne_zero hn)
  rw [← magnitude_eq_natCast_iff.mpr hother]
  exact h.bounds.2.trans_lt (highEnd_lt hlt)

theorem scale_shortest_neg (tie : Tie) (hrank : 0 < rank) (hn : ∀ n : Nat, magnitude rank ≠ n) :
    (shortest tie rank).scale < 0 := by
  have hreads := readsBack_shortest tie hrank
  have hlt := hreads.lt_of_not_whole hn
  refine not_le.mp fun hscale => ?_
  rw [value_eq_natCast hscale] at hreads hlt
  have hsmall := Nat.cast_lt.mp hlt
  exact hn _ (hreads.eq_natCast (by omega))

end Number

end TaggedText
