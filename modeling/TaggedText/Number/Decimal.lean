import TaggedText.Number
import TaggedText.Text

/-!
# Decimal texts of magnitudes

A decimal is a natural number with a power of ten. It can be written plainly, with as
many zeros as that takes, and it can be read from digits with a point and an exponent.
Reading rounds once, from the exact value. An exponent that is out of range for every
number is not expanded.
-/
namespace TaggedText

/-- The value `digits * 10 ^ scale`. -/
structure Decimal where
  digits : Nat
  scale : Int
  deriving DecidableEq, Repr

namespace Decimal

/-- How many digits a natural number has. -/
def digitCount (n : Nat) : Nat :=
  (Nat.toDigits 10 n).length

/-- Exponent of the leading digit. -/
def order (d : Decimal) : Int :=
  digitCount d.digits - 1 + d.scale

/-- The number that decimal digits stand for. -/
def ofDigits (cs : Text) : Nat :=
  cs.foldl (fun n c => 10 * n + (c.toNat - '0'.toNat)) 0

/-- Digits without exponent; a point only before a fraction. -/
def plain (d : Decimal) : Text :=
  let ds := Nat.toDigits 10 d.digits
  if 0 ≤ d.scale then ds ++ List.replicate d.scale.toNat '0'
  else
    let fraction := (-d.scale).toNat
    if fraction < ds.length then
      ds.take (ds.length - fraction) ++ '.' :: ds.drop (ds.length - fraction)
    else '0' :: '.' :: (List.replicate (fraction - ds.length) '0' ++ ds)

/-- Orders past which every decimal is above all finite numbers, or below half the least one. -/
def orderLimit : Int := 400

/-- The number nearest to a decimal. -/
def toNumber (negative : Bool) (d : Decimal) : Number :=
  if d.digits = 0 ∨ d.order < -orderLimit then .ofRank negative 0
  else if orderLimit < d.order then .infinite negative
  else .ofRatio negative (d.digits * Nat.pow 10 d.scale.toNat) (Nat.pow 10 (-d.scale).toNat)

/-- A sign at the head of a text, and what follows it; true for minus. -/
def splitSign : Text → Bool × Text
  | '-' :: cs => (true, cs)
  | '+' :: cs => (false, cs)
  | cs => (false, cs)

/-- The exponent that ends a decimal text. -/
def exponent? : Text → Option Int
  | [] => some 0
  | c :: cs =>
      if c = 'e' ∨ c = 'E' then
        let (negative, digits) := splitSign cs
        if digits ≠ [] ∧ digits.all Char.isDigit then
          some (if negative then -(ofDigits digits : Int) else ofDigits digits)
        else none
      else none

/-- Reads digits with at most one point and an optional exponent; at least one digit must stand
before the exponent. -/
def ofText? (text : Text) : Option Decimal :=
  let whole := text.takeWhile Char.isDigit
  let (fraction, rest) :=
    match text.dropWhile Char.isDigit with
    | '.' :: cs => (cs.takeWhile Char.isDigit, cs.dropWhile Char.isDigit)
    | cs => ([], cs)
  if whole = [] ∧ fraction = [] then none
  else (exponent? rest).map fun e => ⟨ofDigits (whole ++ fraction), e - fraction.length⟩

end Decimal

namespace Number

/-- Reads a number: an optional sign, then a decimal or one of the words inf, infinity and nan
in any case. -/
def ofText? (text : Text) : Option Number :=
  let (negative, magnitude) := Decimal.splitSign text
  let word := String.ofList (magnitude.map Char.toLower)
  if word = "inf" ∨ word = "infinity" then some (.infinite negative)
  else if word = "nan" then some .nan
  else (Decimal.ofText? magnitude).map (Decimal.toNumber negative)

end Number

end TaggedText
