import TaggedText.Json
import TaggedText.Value

/-!
# Values as JSON data

A whole number up to `exactBound` in magnitude becomes an integer, so a zero loses its
sign. Any other number stays as it is, and its text decides what is left of it. References
and calls become objects that name themselves under a marker key, and a custom object is
only its text.

Reading gives back numbers, strings, arrays and maps. It knows no marker, so an object that
says it is a reference is read as a map. Under a repeated name the last value holds, in the
place of the first.
-/
namespace TaggedText.Value

/-- Whole numbers up to this magnitude are written as integers. -/
def exactBound : Nat := Nat.pow 2 53

/-- The key under which an object says what it stands for. -/
def marker : String := "$$mdtype"

def numberJson (n : Number) : Json :=
  match n.toInt? with
  | some i => if i.natAbs ≤ exactBound then .integer i else .number n
  | none => .number n

def segmentJson : PathSegment → Json
  | .key name => .string name
  | .index n => .nat n

mutual

/-- The value as JSON data. -/
def toJson : Value → Json
  | null => .null
  | bool b => .bool b
  | number n => numberJson n
  | string s => .string s
  | array items => .array (itemsJson items)
  | map entries => .object (entriesJson entries)
  | reference path =>
      .object [(marker, .string "Variable"), ("path", .array (path.map segmentJson))]
  | call name arguments =>
      .object [(marker, .string "Function"), ("name", .string name),
        ("parameters", .object (entriesJson arguments))]
  | custom _ text => .string text

def itemsJson : List Value → List Json
  | [] => []
  | item :: items => item.toJson :: itemsJson items

def entriesJson : List (String × Value) → List (String × Json)
  | [] => []
  | (key, value) :: rest => (key, value.toJson) :: entriesJson rest

end

mutual

/-- The value of JSON data. -/
def ofJson : Json → Value
  | .null => null
  | .bool b => bool b
  | .integer i => number (.ofInt i)
  | .number n => number n
  | .string s => string s
  | .array items => array (itemsOfJson items)
  | .object members => map (Entries.ofList (membersOfJson members))

def itemsOfJson : List Json → List Value
  | [] => []
  | item :: items => ofJson item :: itemsOfJson items

def membersOfJson : List (String × Json) → List (String × Value)
  | [] => []
  | (name, value) :: rest => (name, ofJson value) :: membersOfJson rest

end

end TaggedText.Value
