import TaggedText.Number

/-!
# JSON data

Integers are kept apart from other numbers, because they are written digit by digit
whatever their size. An object keeps all members in the order in which they stand, a
repeated name included; what a repetition means is for the reader of the object to say.
-/
namespace TaggedText

inductive Json where
  | null
  | bool (b : Bool)
  | integer (i : Int)
  | number (n : Number)
  | string (s : String)
  | array (items : List Json)
  | object (members : List (String × Json))
  deriving Repr, Inhabited

namespace Json

/-- A natural number as an integer. -/
def nat (n : Nat) : Json :=
  .integer n

/-- An object without members whose value is missing. -/
def objectOf (members : List (String × Option Json)) : Json :=
  .object (members.filterMap fun m => m.2.map fun value => (m.1, value))

end Json

end TaggedText
