import TaggedText.Number.Decimal

/-!
# Shortest decimal digits

Every decimal between the midpoints around a magnitude reads back as that magnitude;
the midpoints themselves do so when the rank is even. The shortest decimal is found on
ever finer grids of powers of ten, beginning at the order of the magnitude. On each grid
only the two neighbours of the magnitude can be between the midpoints and nearest to it.
The first grid with a hit wins, and of two hits the nearer. Seventeen digits always
suffice.

Two hits at the same distance are told apart by the caller's rule.
-/
namespace TaggedText.Number

/-- Which of two decimals at the same distance is taken. -/
inductive Tie where
  | away
  | even
  deriving DecidableEq, Repr

/-- Half units per step of the grid of `10 ^ scale`, after scaling by the first component so that
both are whole. -/
def grid (scale : Int) : Nat × Nat :=
  (Nat.pow 10 (-scale).toNat, Nat.pow 10 scale.toNat * (2 * unitsPerOne))

/-- Whether `x` half units, scaled by `factor`, read back as the rank. -/
def readsBack (rank factor x : Nat) : Bool :=
  let low := (units (rank - 1) + units rank) * factor
  let high := (units rank + units (rank + 1)) * factor
  if rank % 2 = 0 then low ≤ x && x ≤ high else low < x && x < high

/-- The digits on one grid that read back as the rank, nearest first. -/
def digitsOn? (tie : Tie) (rank : Nat) (scale : Int) : Option Nat :=
  let (factor, step) := grid scale
  let value := 2 * units rank * factor
  let below := value / step
  let above := below + 1
  match readsBack rank factor (below * step), readsBack rank factor (above * step) with
  | true, true =>
      let down := value - below * step
      let up := above * step - value
      if down < up then some below
      else if up < down then some above
      else match tie with
        | .away => some above
        | .even => some (below + below % 2)
  | true, false => some below
  | false, true => some above
  | false, false => none

/-- Exponent of the leading decimal digit of a positive magnitude. -/
def decimalOrder (rank : Nat) : Int :=
  let u := units rank
  if unitsPerOne ≤ u then Decimal.digitCount (u / unitsPerOne) - 1
  else
    let n := Decimal.digitCount (unitsPerOne / u)
    if unitsPerOne ≤ u * Nat.pow 10 (n - 1) then 1 - (n : Int) else -(n : Int)

/-- The first hit on at most `n` grids, from `scale` downwards. -/
def firstHit (tie : Tie) (rank : Nat) : Nat → Int → Decimal
  | 0, scale => ⟨0, scale⟩
  | n + 1, scale =>
      match digitsOn? tie rank scale with
      | some digits => ⟨digits, scale⟩
      | none => firstHit tie rank n (scale - 1)

/-- The same decimal without a trailing zero, for the one hit that can have one. -/
def dropZero (d : Decimal) : Decimal :=
  if d.digits = 10 then ⟨1, d.scale + 1⟩ else d

/-- The shortest decimal that reads back as the magnitude. -/
def shortest (tie : Tie) (rank : Nat) : Decimal :=
  if rank = 0 then ⟨0, 0⟩
  else dropZero (firstHit tie rank 17 (decimalOrder rank))

/-- The plain text of a number: shortest digits, no exponent, no point in a whole number. -/
def toText : Number → Text
  | nan => ['N', 'a', 'N']
  | infinite negative => (if negative then ['-'] else []) ++ ['i', 'n', 'f']
  | finite negative rank => (if negative then ['-'] else []) ++ (shortest .away rank).plain

end TaggedText.Number
