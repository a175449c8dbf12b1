import TaggedText.Json
import TaggedText.Number.Shortest

/-!
# JSON texts

Two layouts: `compress` writes no space, and `pretty` gives each item a line, indented
by two blanks per level. Empty containers are closed at once in both.

A string escapes the quote, the backslash and the controls below the blank, five of
them by a letter, and nothing else. A number is written with its shortest digits: plainly
when its order lies between -5 and 15, else with one digit before the point and a signed
exponent. A plain whole number keeps a fraction of one zero. Numbers that are not finite
have no text of their own and are written as null.
-/
namespace TaggedText.Json

/-- A digit of base sixteen, in lower case. -/
def hexDigit (n : Nat) : Char :=
  Nat.digitChar (n % 16)

/-- A character inside a string. -/
def escapeChar (c : Char) : Text :=
  if c = '"' then ['\\', '"']
  else if c = '\\' then ['\\', '\\']
  else if c = '\x08' then ['\\', 'b']
  else if c = '\x0c' then ['\\', 'f']
  else if c = '\n' then ['\\', 'n']
  else if c = '\r' then ['\\', 'r']
  else if c = '\t' then ['\\', 't']
  else if c.toNat < 0x20 then ['\\', 'u', '0', '0', hexDigit (c.toNat / 16), hexDigit c.toNat]
  else [c]

/-- A string with its quotes. -/
def quote (s : String) : Text :=
  '"' :: (s.toList.flatMap escapeChar ++ ['"'])

/-- An integer in decimal digits. -/
def integerText (i : Int) : Text :=
  (if i < 0 then ['-'] else []) ++ Nat.toDigits 10 i.natAbs

/-- Orders of the magnitudes that are written plainly. -/
def isPlainOrder (order : Int) : Bool :=
  -5 ≤ order && order ≤ 15

/-- One digit before the point, and the order as a signed exponent. -/
def scientific (d : Decimal) : Text :=
  let exponent := (if d.order < 0 then '-' else '+') :: Nat.toDigits 10 d.order.natAbs
  match Nat.toDigits 10 d.digits with
  | [] => []
  | [c] => c :: 'e' :: exponent
  | c :: cs => c :: '.' :: (cs ++ 'e' :: exponent)

/-- A magnitude in the layout its order asks for. -/
def decimalText (d : Decimal) : Text :=
  if isPlainOrder d.order then d.plain ++ (if 0 ≤ d.scale then ['.', '0'] else [])
  else scientific d

/-- A number; null where it is not finite. -/
def numberText : Number → Text
  | .finite negative rank =>
      (if negative then ['-'] else []) ++ decimalText (Number.shortest .even rank)
  | _ => ['n', 'u', 'l', 'l']

/-- Joins texts by a separator. -/
def joinWith (separator : Text) : List Text → Text
  | [] => []
  | [t] => t
  | t :: ts => t ++ (separator ++ joinWith separator ts)

mutual

/-- The text without spaces. -/
def compress : Json → Text
  | null => ['n', 'u', 'l', 'l']
  | bool b => if b then ['t', 'r', 'u', 'e'] else ['f', 'a', 'l', 's', 'e']
  | integer i => integerText i
  | number n => numberText n
  | string s => quote s
  | array items => '[' :: (joinWith [','] (compressItems items) ++ [']'])
  | object members => '{' :: (joinWith [','] (compressMembers members) ++ ['}'])

def compressItems : List Json → List Text
  | [] => []
  | item :: items => compress item :: compressItems items

def compressMembers : List (String × Json) → List Text
  | [] => []
  | (name, value) :: members => (quote name ++ ':' :: compress value) :: compressMembers members

end

/-- A line feed and the indentation of a level. -/
def newline (level : Nat) : Text :=
  '\n' :: List.replicate (2 * level) ' '

/-- Items of a container on lines of their own, one level in. -/
def block (level : Nat) (left right : Char) (items : List Text) : Text :=
  if items.isEmpty then [left, right]
  else
    left :: (newline (level + 1) ++ joinWith (',' :: newline (level + 1)) items
      ++ newline level ++ [right])

mutual

/-- The indented text of a value that stands on the given level. -/
def prettyAt : Nat → Json → Text
  | level, array items => block level '[' ']' (prettyItems (level + 1) items)
  | level, object members => block level '{' '}' (prettyMembers (level + 1) members)
  | _, null => ['n', 'u', 'l', 'l']
  | _, bool b => if b then ['t', 'r', 'u', 'e'] else ['f', 'a', 'l', 's', 'e']
  | _, integer i => integerText i
  | _, number n => numberText n
  | _, string s => quote s

def prettyItems : Nat → List Json → List Text
  | _, [] => []
  | level, item :: items => prettyAt level item :: prettyItems level items

def prettyMembers : Nat → List (String × Json) → List Text
  | _, [] => []
  | level, (name, value) :: members =>
      (quote name ++ ':' :: ' ' :: prettyAt level value) :: prettyMembers level members

end

/-- The indented text. -/
def pretty (json : Json) : Text :=
  prettyAt 0 json

end TaggedText.Json
