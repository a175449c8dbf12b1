import TaggedText.Json
import TaggedText.Number.Decimal

/-!
# Reading JSON texts

The reader takes the strict format: no comments, no comma before a closing bracket, no
raw control in a string, no leading zero, sign or point in a number, no lone surrogate,
and nothing but spaces after the value. Containers nest at most `nestingLimit` deep.

Numbers with a fraction or an exponent are rounded in two steps. The digits are gathered
in a word of 64 bits for as long as they fit; digits that no longer fit are dropped, those
before the point raising the exponent. The gathered number is rounded, and then multiplied
or divided by a rounded power of ten. A number above all finite ones is refused.
-/
namespace TaggedText.Json

/-- Deepest nesting of arrays and objects. -/
def nestingLimit : Nat := 127

def isSpace (c : Char) : Bool :=
  c = ' ' || c = '\n' || c = '\t' || c = '\r'

def skipSpaces (text : Text) : Text :=
  text.dropWhile isSpace

/-- The value of a digit of base sixteen in either case. -/
def hexValue? (c : Char) : Option Nat :=
  if c.isDigit then some (c.toNat - '0'.toNat)
  else if 'a' ≤ c && c ≤ 'f' then some (c.toNat - 'a'.toNat + 10)
  else if 'A' ≤ c && c ≤ 'F' then some (c.toNat - 'A'.toNat + 10)
  else none

/-- A code unit written with four digits. -/
def codeUnit? (a b c d : Char) : Option Nat := do
  let high := (← hexValue? a) * 16 + (← hexValue? b)
  let low := (← hexValue? c) * 16 + (← hexValue? d)
  return high * 256 + low

/-- The character after a backslash, where it is a letter's escape. -/
def unescape? : Char → Option Char
  | '"' => some '"'
  | '\\' => some '\\'
  | '/' => some '/'
  | 'b' => some '\x08'
  | 'f' => some '\x0c'
  | 'n' => some '\n'
  | 'r' => some '\r'
  | 't' => some '\t'
  | _ => none

/-- The rest of a string after its first quote; `read` holds what was read, last first. -/
def stringRest (read : Text) : Text → Option (String × Text)
  | [] => none
  | '"' :: rest => some (String.ofList read.reverse, rest)
  | '\\' :: 'u' :: a :: b :: c :: d :: rest =>
      match codeUnit? a b c d with
      | none => none
      | some unit =>
          if 0xD800 ≤ unit && unit < 0xDC00 then
            match rest with
            | '\\' :: 'u' :: a :: b :: c :: d :: rest =>
                match codeUnit? a b c d with
                | none => none
                | some low =>
                    if 0xDC00 ≤ low && low < 0xE000 then
                      stringRest
                        (Char.ofNat (0x10000 + (unit - 0xD800) * 0x400 + (low - 0xDC00)) :: read)
                        rest
                    else none
            | _ => none
          else if 0xDC00 ≤ unit && unit < 0xE000 then none
          else stringRest (Char.ofNat unit :: read) rest
  | '\\' :: e :: rest =>
      match unescape? e with
      | none => none
      | some c => stringRest (c :: read) rest
  | c :: rest => if c.toNat < 0x20 || c = '\\' then none else stringRest (c :: read) rest

/-- Numbers of 64 bits are below this bound. -/
def wordLimit : Nat := Nat.pow 2 64

/-- Gathers digits for as long as the number fits into 64 bits, and counts those taken. -/
def gather : Nat → Text → Nat × Nat
  | n, [] => (n, 0)
  | n, d :: ds =>
      let next := 10 * n + (d.toNat - '0'.toNat)
      if next < wordLimit then
        let r := gather next ds
        (r.1, r.2 + 1)
      else (n, 0)

/-- Rank of the double nearest to a power of ten, for powers up to 308. -/
def powerRank (k : Nat) : Nat :=
  Number.nearestRank (Nat.pow 10 k * Number.unitsPerOne) 1

/-- Divides a magnitude by a power of ten, in steps of at most 308 places. -/
def divideByPower (rank k : Nat) : Nat :=
  if k ≤ 308 then Number.divRank rank (powerRank k)
  else if rank = 0 then 0
  else divideByPower (Number.divRank rank (powerRank 308)) (k - 308)
termination_by k

/-- Rank of gathered digits with an exponent; none above the finite magnitudes. -/
def scaledRank? (digits : Nat) (exponent : Int) : Option Nat :=
  let rank := Number.nearestRank (digits * Number.unitsPerOne) 1
  if exponent < 0 then some (divideByPower rank exponent.natAbs)
  else if digits = 0 then some 0
  else if 308 < exponent then none
  else
    let product := Number.mulRank rank (powerRank exponent.natAbs)
    if product < Number.ranks then some product else none

/-- The parts of a number text after its sign. -/
structure NumberParts where
  whole : Text
  /-- The digits after the point, if there is a point. -/
  fraction : Option Text
  /-- The exponent, if there is one. -/
  exponent : Option Int

/-- Digits after a mark, at least one. -/
def someDigits? (text : Text) : Option (Text × Text) :=
  let digits := text.takeWhile Char.isDigit
  if digits.isEmpty then none else some (digits, text.dropWhile Char.isDigit)

/-- The digits before the point: a single zero, or digits that do not begin with one. -/
def wholeDigits? : Text → Option (Text × Text)
  | '0' :: rest => if (rest.takeWhile Char.isDigit).isEmpty then some (['0'], rest) else none
  | text => someDigits? text

def fractionDigits? : Text → Option (Option Text × Text)
  | '.' :: rest => (someDigits? rest).map fun r => (some r.1, r.2)
  | text => some (none, text)

def exponentDigits? : Text → Option (Option Int × Text)
  | c :: rest =>
      if c = 'e' ∨ c = 'E' then
        let (negative, digits) := Decimal.splitSign rest
        (someDigits? digits).map fun r =>
          let n : Int := Decimal.ofDigits r.1
          (some (if negative then -n else n), r.2)
      else some (none, c :: rest)
  | [] => some (none, [])

def numberParts? (text : Text) : Option (NumberParts × Text) := do
  let (whole, rest) ← wholeDigits? text
  let (fraction, rest) ← fractionDigits? rest
  let (exponent, rest) ← exponentDigits? rest
  return (⟨whole, fraction, exponent⟩, rest)

/-- The number of its parts. A whole number that fits into 64 bits is an integer, except for a
zero with a sign. -/
def NumberParts.toJson? (parts : NumberParts) (negative : Bool) : Option Json :=
  let whole := gather 0 parts.whole
  let dropped := parts.whole.length - whole.2
  if parts.fraction.isNone && parts.exponent.isNone && dropped = 0 then
    if negative && whole.1 = 0 then some (.number (.ofRank true 0))
    else some (.integer (if negative then -whole.1 else whole.1))
  else
    let all := gather whole.1 (parts.fraction.getD [])
    (scaledRank? all.1 (dropped - all.2 + parts.exponent.getD 0)).map fun rank =>
      .number (.ofRank negative rank)

/-- A number at the head of a text. -/
def readNumber (text : Text) : Option (Json × Text) := do
  let (negative, magnitude) :=
    match text with
    | '-' :: rest => (true, rest)
    | _ => (false, text)
  let (parts, rest) ← numberParts? magnitude
  return (← parts.toJson? negative, rest)

variable {α : Type}

/-- What follows a word at the head of a text. -/
def afterWord? : Text → Text → Option Text
  | [], text => some text
  | _ :: _, [] => none
  | w :: ws, c :: cs => if w = c then afterWord? ws cs else none

/-- A value that holds no other values. -/
def readScalar : Text → Option (Json × Text)
  | [] => none
  | c :: cs =>
      if c = '"' then (stringRest [] cs).map fun r => (.string r.1, r.2)
      else if c = 'n' then (afterWord? ['u', 'l', 'l'] cs).map fun rest => (.null, rest)
      else if c = 't' then (afterWord? ['r', 'u', 'e'] cs).map fun rest => (.bool true, rest)
      else if c = 'f' then (afterWord? ['a', 'l', 's', 'e'] cs).map fun rest => (.bool false, rest)
      else readNumber (c :: cs)

/-- Items after the first, each behind a comma, up to a closing bracket. The fuel bounds the
number of items. -/
def readMore (item : Text → Option (α × Text)) (close : Char) :
    Nat → List α → Text → Option (List α × Text)
  | 0, _, _ => none
  | fuel + 1, read, text =>
      match skipSpaces text with
      | c :: rest =>
          if c = close then some (read.reverse, rest)
          else if c = ',' then
            match item (skipSpaces rest) with
            | some (a, rest) => readMore item close fuel (a :: read) rest
            | none => none
          else none
      | [] => none

/-- Items behind an opening bracket, separated by commas, up to the closing one. -/
def readItems (item : Text → Option (α × Text)) (close : Char) (text : Text) :
    Option (List α × Text) :=
  match skipSpaces text with
  | c :: rest =>
      if c = close then some ([], rest)
      else
        match item (c :: rest) with
        | some (a, rest) => readMore item close (rest.length + 1) [a] rest
        | none => none
  | [] => none

/-- A member of an object, its value being read by `value`. -/
def readMember (value : Text → Option (Json × Text)) : Text → Option ((String × Json) × Text)
  | '"' :: cs =>
      match stringRest [] cs with
      | some (name, rest) =>
          match skipSpaces rest with
          | ':' :: rest => (value (skipSpaces rest)).map fun r => ((name, r.1), r.2)
          | _ => none
      | none => none
  | _ => none

/-- A value at the head of a text, with at most `depth` containers around one another. -/
def readValue : Nat → Text → Option (Json × Text)
  | 0, text => readScalar text
  | depth + 1, text =>
      match text with
      | '[' :: rest => (readItems (readValue depth) ']' rest).map fun r => (.array r.1, r.2)
      | '\x7b' :: rest =>
          (readItems (readMember (readValue depth)) '\x7d' rest).map fun r => (.object r.1, r.2)
      | _ => readScalar text

/-- The value of a whole text. -/
def ofText? (text : Text) : Option Json :=
  match readValue nestingLimit (skipSpaces text) with
  | some (json, rest) => if (skipSpaces rest).isEmpty then some json else none
  | none => none

end TaggedText.Json
