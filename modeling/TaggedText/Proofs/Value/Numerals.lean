import TaggedText.Proofs.Number.Texts
import TaggedText.Value.Display

/-!
# Numbers inside a map

Alone, a number is written plainly. Inside a map it is laid out as JSON, where a whole number up to
the bound for integers has no sign if it is zero, a larger one has a point or an exponent, and a
small fraction has an exponent. What is left is written alike in both places, unless its digits are
a tie, which the two layouts break by rules of their own.
-/
namespace TaggedText

namespace Number

variable {negative : Bool} {rank : Fin ranks} {n : Nat}

/-- The finite numbers that are written alike inside and outside a map. -/
structure PrintsAlike (negative : Bool) (rank : Nat) : Prop where
  zero : rank = 0 → negative = false
  small : 0 < rank → leastPlain ≤ rank
  whole : ∀ n : Nat, magnitude rank = n → n ≤ Value.exactBound
  tie : ∀ k scale, ¬ IsTie rank k scale

theorem toInt?_of_whole (hn : magnitude rank = n) :
    (finite negative rank).toInt? = some (if negative then -(n : Int) else n) := by
  have hone := unitsPerOne_pos
  rw [toInt?, magnitude_eq_natCast_iff.mp hn]
  generalize unitsPerOne = one at hone ⊢
  rw [if_pos (Nat.mul_mod_left n one), Nat.mul_div_cancel n hone]

theorem toInt?_of_not_whole (hn : ∀ n : Nat, magnitude rank ≠ n) :
    (finite negative rank).toInt? = none :=
  if_neg (units_mod_ne_zero hn)

theorem natAbs_signed (negative : Bool) (n : Nat) :
    (if negative then -(n : Int) else n).natAbs = n := by
  cases negative with
  | false => rfl
  | true => exact Int.natAbs_neg n

/-- An integer has the sign of its number if it is not zero. -/
theorem integerText_signed_iff (negative : Bool) (n : Nat) :
    Json.integerText (if negative then -(n : Int) else n) =
        (if negative then ['-'] else []) ++ Nat.toDigits 10 n ↔ (n = 0 → negative = false) := by
  rw [Json.integerText, natAbs_signed, List.append_cancel_right_eq]
  cases negative <;> simp

theorem numberText_eq_toText_iff : Json.numberText (finite negative rank) =
    (finite negative rank).toText ↔
      Json.decimalText (shortest .even rank) = (shortest .away rank).plain := by
  rw [Json.numberText, toText, List.append_cancel_left_eq]

theorem eq_zero_iff_of_whole (hn : magnitude rank = n) : rank.val = 0 ↔ n = 0 := by
  rw [← magnitude_eq_zero_iff, hn, Nat.cast_eq_zero]

theorem toText_of_whole (hn : magnitude rank = n) (hle : n ≤ 2 * binade) :
    (finite negative rank).toText = (if negative then ['-'] else []) ++ Nat.toDigits 10 n := by
  rw [toText]
  rcases Nat.eq_zero_or_pos rank.val with hrank | hrank
  · rw [hrank, (eq_zero_iff_of_whole hn).mp hrank]
    rfl
  · rw [plain_shortest_of_whole .away hrank hn hle]

/-- A whole number up to the bound can differ in the sign only. -/
theorem printsAlike_iff_of_whole (hn : magnitude rank = n) (hle : n ≤ 2 * binade) :
    PrintsAlike negative rank ↔ (n = 0 → negative = false) := by
  have hzero := eq_zero_iff_of_whole hn
  constructor
  · exact fun h hn => h.zero (hzero.mpr hn)
  · refine fun h => ⟨fun hrank => h (hzero.mp hrank), fun hrank => leastPlain_le_of_whole hrank hn,
      fun m hm => ?_, fun k scale => not_isTie_of_whole hn hle⟩
    rw [Nat.cast_inj.mp (hm.symm.trans hn)]
    exact hle

/-- The two layouts of a number have one text for just these numbers. -/
theorem compress_numberJson_eq_toText_iff :
    (Value.numberJson (finite negative rank)).compress = (finite negative rank).toText ↔
      PrintsAlike negative rank := by
  by_cases hwhole : ∃ n : Nat, magnitude rank = n
  · obtain ⟨n, hn⟩ := hwhole
    rw [Value.numberJson, toInt?_of_whole hn]
    dsimp only
    rw [natAbs_signed]
    by_cases hle : n ≤ Value.exactBound
    · rw [if_pos hle, Json.compress, toText_of_whole hn hle, integerText_signed_iff,
        printsAlike_iff_of_whole hn hle]
    · have hne : n ≠ 0 := by
        rintro rfl
        exact hle (Nat.zero_le _)
      have hrank := Nat.pos_of_ne_zero (mt (eq_zero_iff_of_whole hn).mp hne)
      rw [if_neg hle, Json.compress, numberText_eq_toText_iff]
      refine iff_of_false ?_ fun h => hle (h.whole n hn)
      exact Json.decimalText_ne_plain_of_whole (scale_shortest_nonneg .even hrank hn)
        (scale_shortest_nonneg .away hrank hn)
  · have hfraction : ∀ n : Nat, magnitude rank ≠ n := not_exists.mp hwhole
    have hne : magnitude rank ≠ 0 := mod_cast hfraction 0
    have hrank := Nat.pos_of_ne_zero (mt magnitude_eq_zero_iff.mpr hne)
    rw [Value.numberJson, toInt?_of_not_whole hfraction]
    dsimp only
    rw [Json.compress, numberText_eq_toText_iff, decimalText_shortest_eq_plain_iff hrank hfraction]
    constructor
    · exact fun h => ⟨fun hzero => absurd hzero hrank.ne', fun _ => h.1,
        fun n hn => absurd hn (hfraction n), h.2⟩
    · exact fun h => ⟨h.small hrank, h.tie⟩

end Number

namespace Value

theorem toText_map_singleton (key : String) (v : Value) : (map [(key, v)]).toText =
    '{' :: (Json.quote key ++ ':' :: v.toJson.compress ++ ['}']) :=
  rfl

/-- A finite number is written alike inside and outside a map, unless it is a zero with a minus
sign, a fraction below `10 ^ -5`, a whole number above the bound for integers, or a tie. -/
theorem toText_map_number_iff (key : String) (negative : Bool) (rank : Fin Number.ranks) :
    (map [(key, number (.finite negative rank))]).toText =
        '{' :: (Json.quote key ++ ':' :: (number (.finite negative rank)).toText ++ ['}']) ↔
      Number.PrintsAlike negative rank := by
  rw [toText_map_singleton, List.cons.injEq, List.append_cancel_right_eq,
    List.append_cancel_left_eq, List.cons.injEq]
  simp only [true_and]
  exact Number.compress_numberJson_eq_toText_iff

/-- The sign of a zero is lost inside a map. -/
theorem not_toText_map_minus_zero :
    (map [("n", number (.finite true ⟨0, by decide⟩))]).toText ≠
      '{' :: (Json.quote "n" ++ ':' :: (number (.finite true ⟨0, by decide⟩)).toText ++ ['}']) := by
  decide +kernel

end Value

end TaggedText
