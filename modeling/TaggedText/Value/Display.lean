import TaggedText.Json.Printer
import TaggedText.Value.Encoding

/-!
# What a value looks like inside a text

Null is the empty text, a string is itself without quotes, and an array is its items with
commas between them. A map is written as JSON without spaces. A reference is a dollar sign
and its path, and a call is its name with the arguments in parentheses, where an argument
under a number is written without its name.
-/
namespace TaggedText

namespace PathSegment

/-- A step of a path that does not begin it. -/
def toText : PathSegment → Text
  | key name => '.' :: name.toList
  | index n => '[' :: (Nat.toDigits 10 n ++ [']'])

/-- A path as it is written, without the dollar sign. -/
def pathText : List PathSegment → Text
  | [] => []
  | key name :: rest => name.toList ++ rest.flatMap toText
  | index n :: rest => toText (index n) ++ rest.flatMap toText

end PathSegment

namespace Value

/-- Whether the name of an argument is a number below the index limit, with or without a plus
sign: such an argument is known by its position. -/
def isPosition (name : String) : Bool :=
  match name.toList with
  | '+' :: digits => (index? digits).isSome
  | digits => (index? digits).isSome

mutual

/-- The text that stands for a value where it is put into a string. -/
def toText : Value → Text
  | null => []
  | bool b => if b then ['t', 'r', 'u', 'e'] else ['f', 'a', 'l', 's', 'e']
  | number n => n.toText
  | string s => s.toList
  | array items => Json.joinWith [','] (itemTexts items)
  | map entries => (toJson (map entries)).compress
  | reference path => '$' :: PathSegment.pathText path
  | call name arguments =>
      name.toList ++ '(' :: (Json.joinWith [',', ' '] (argumentTexts arguments) ++ [')'])
  | custom _ text => text.toList

def itemTexts : List Value → List Text
  | [] => []
  | item :: items => item.toText :: itemTexts items

def argumentTexts : List (String × Value) → List Text
  | [] => []
  | (name, value) :: rest =>
      ((if isPosition name then [] else name.toList ++ ['=']) ++ value.toText)
        :: argumentTexts rest

end

end Value

end TaggedText
