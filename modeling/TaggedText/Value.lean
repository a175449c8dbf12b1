import TaggedText.Entries
import TaggedText.Number
import TaggedText.Number.Decimal

/-!
# Values

A value is data as JSON knows it, or a reference to a variable, or a call of a function
by name, or a custom object that only its maker can look into. References and calls are
kept as written; nothing here evaluates them.

Values are compared by `same`. Numbers compare as numbers, so a value that holds nan is not
the same as itself. Maps and the arguments of calls compare whatever the order of their
entries. A custom object is the same only as itself, which is what its identity is for.
-/
namespace TaggedText

/-- One step of a path into a value: a key of a map or an index of an array. -/
inductive PathSegment where
  | key (name : String)
  | index (n : Nat)
  deriving DecidableEq, Repr

inductive Value where
  | null
  | bool (b : Bool)
  | number (n : Number)
  | string (s : String)
  | array (items : List Value)
  | map (entries : List (String × Value))
  | reference (path : List PathSegment)
  | call (name : String) (arguments : List (String × Value))
  | custom (identity : Nat) (text : String)
  deriving Repr, Inhabited

/-- Values under names: variables, attributes, options. -/
abbrev Bindings := Entries Value

/-- Indices and positions are below this bound. -/
def indexLimit : Nat := Nat.pow 2 64

/-- The index that a run of decimal digits stands for. -/
def index? (digits : Text) : Option Nat :=
  if digits ≠ [] ∧ digits.all Char.isDigit ∧ Decimal.ofDigits digits < indexLimit then
    some (Decimal.ofDigits digits)
  else none

namespace Value

def isNull : Value → Bool
  | null => true
  | _ => false

/-- The text of a string. -/
def string? : Value → Option String
  | string s => some s
  | _ => none

/-- The items of an array. -/
def array? : Value → Option (List Value)
  | array items => some items
  | _ => none

/-- The entries of a map. -/
def map? : Value → Option (Entries Value)
  | map entries => some entries
  | _ => none

mutual

/-- Equality of values. -/
def same : Value → Value → Bool
  | null, null => true
  | bool a, bool b => a == b
  | number a, number b => a.same b
  | string a, string b => a == b
  | array a, array b => sameItems a b
  | map a, map b => a.length == b.length && sameEntries a b
  | reference a, reference b => a == b
  | call f a, call g b => f == g && a.length == b.length && sameEntries a b
  | custom a _, custom b _ => a == b
  | _, _ => false

def sameItems : List Value → List Value → Bool
  | [], [] => true
  | a :: as, b :: bs => same a b && sameItems as bs
  | _, _ => false

/-- Whether each entry is found with the same value among the others. -/
def sameEntries : List (String × Value) → Entries Value → Bool
  | [], _ => true
  | (k, a) :: rest, others =>
      (match others.get? k with
        | some b => same a b
        | none => false) && sameEntries rest others

end

mutual

/-- Whether no key occurs twice in any map or call of the value. -/
def Distinct : Value → Prop
  | array items => DistinctItems items
  | map entries => Entries.Distinct entries ∧ DistinctEntries entries
  | call _ arguments => Entries.Distinct arguments ∧ DistinctEntries arguments
  | _ => True

def DistinctItems : List Value → Prop
  | [] => True
  | item :: items => item.Distinct ∧ DistinctItems items

def DistinctEntries : List (String × Value) → Prop
  | [] => True
  | (_, value) :: rest => value.Distinct ∧ DistinctEntries rest

end

end Value

end TaggedText
