/-!
# Binary floating-point numbers

Numbers have a sign, 53 significant bits and an exponent of eleven bits. The finite
magnitudes are held by rank: rank 0 is zero, rank 1 the least positive magnitude, and
each further rank the next magnitude. Order of ranks is order of magnitudes, and the
neighbours of a magnitude are the neighbours of its rank.

A magnitude is an exact natural number of units, one unit being the least positive
magnitude. Every rounding goes through `nearestRank`, which takes an exact quotient of
units to the nearest rank and a half to the even one. Nothing here is approximate.
-/
namespace TaggedText

namespace Number

/-- Ranks with one exponent. -/
def binade : Nat := Nat.pow 2 52

/-- Number of finite magnitudes. -/
def ranks : Nat := 2047 * binade

/-- How many units make one. -/
def unitsPerOne : Nat := Nat.pow 2 1074

end Number

/-- A binary floating-point number. -/
inductive Number where
  | nan
  | infinite (negative : Bool)
  | finite (negative : Bool) (rank : Fin Number.ranks)
  deriving DecidableEq, Repr

namespace Number

/-- The magnitude of a rank, in units. -/
def units (rank : Nat) : Nat :=
  let exponent := rank / binade - 1
  (rank - exponent * binade) * Nat.pow 2 exponent

/-- Nearest natural number to a quotient; a half goes to the even one. -/
def roundDiv (num den : Nat) : Nat :=
  let q := num / den
  let r := num % den
  if 2 * r < den then q else if den < 2 * r then q + 1 else q + q % 2

/-- The rank whose magnitude is nearest to `num / den` units. -/
def nearestRank (num den : Nat) : Nat :=
  let exponent := (num / den).log2 - 52
  exponent * binade + roundDiv num (den * Nat.pow 2 exponent)

theorem units_of_lt {rank : Nat} (h : rank < 2 * binade) : units rank = rank := by
  have : rank / binade - 1 = 0 := by
    have := Nat.div_lt_of_lt_mul (n := binade) (k := 2) (m := rank) (by omega)
    omega
  simp [units, this]

/-- The number of a rank; a rank past the last finite one stands for an infinity. -/
def ofRank (negative : Bool) (rank : Nat) : Number :=
  if h : rank < ranks then .finite negative ⟨rank, h⟩ else .infinite negative

/-- The number nearest to `num / den`. -/
def ofRatio (negative : Bool) (num den : Nat) : Number :=
  ofRank negative (nearestRank (num * unitsPerOne) den)

/-- The number nearest to an integer. -/
def ofInt (i : Int) : Number :=
  ofRatio (i < 0) i.natAbs 1

/-- Equality of numbers as numbers: the two zeros are equal, and nan equals nothing. -/
def same : Number → Number → Bool
  | infinite a, infinite b => a == b
  | finite a r, finite b s => r.val == s.val && (a == b || r.val == 0)
  | _, _ => false

/-- The integer that a finite number is, if it is one. -/
def toInt? : Number → Option Int
  | finite negative rank =>
      if units rank % unitsPerOne = 0 then
        let n : Nat := units rank / unitsPerOne
        some (if negative then -n else n)
      else none
  | _ => none

/-- Product of two magnitudes, rounded to a rank. -/
def mulRank (a b : Nat) : Nat :=
  nearestRank (units a * units b) unitsPerOne

/-- Quotient of two magnitudes, rounded to a rank. -/
def divRank (a b : Nat) : Nat :=
  nearestRank (units a * unitsPerOne) (units b)

end Number

end TaggedText
