import TaggedText.Grammar.Atoms

/-!
# Expressions

An expression is the value of an attribute. Arrays, maps and calls are items between
brackets, and all three read their items by `separated`: a comma after the last item is
allowed, and blanks may stand around items and commas.

What a reference and a call become is for the caller to say, through `Constructors`.
Reading never looks at a value once it is made.
-/
namespace TaggedText.Grammar

/-- What references and calls become. -/
structure Constructors where
  reference : List PathSegment → Value
  call : String → Entries Value → Value

namespace Constructors

/-- References and calls are kept as they are. -/
def plain : Constructors :=
  ⟨.reference, .call⟩

end Constructors

/-- Items up to a closing bracket. `item` reads one item and adds it to what was read before.
The fuel bounds the number of items. -/
def separated {σ : Type} (close : Char) (item : σ → Text → Except Fault (σ × Text)) :
    Nat → σ → Text → Except Fault (σ × Text)
  | 0, _, text => .error (.atHead (.expected close text.head?) text)
  | fuel + 1, read, text =>
      let inner := text.skipBlanks
      if inner.head? = some close then .ok (read, inner.tail)
      else do
        let (read, rest) ← item read inner
        let rest := rest.skipBlanks
        if rest.head? = some ',' then separated close item fuel read rest.tail
        else if rest.head? = some close then .ok (read, rest.tail)
        else .error (.atHead (.expected close rest.head?) rest)

/-- All items behind an opening bracket. -/
def bracketed {σ : Type} (close : Char) (item : σ → Text → Except Fault (σ × Text))
    (empty : σ) (text : Text) : Except Fault (σ × Text) :=
  separated close item (text.length + 1) empty text

/-- An item of an array; the items read before it stand last first. -/
def arrayItem (value : Text → Except Fault (Value × Text)) (read : List Value) (text : Text) :
    Except Fault (List Value × Text) := do
  let (v, rest) ← value text
  return (v :: read, rest)

/-- An entry of a map. -/
def mapItem (value : Text → Except Fault (Value × Text)) (read : Entries Value) (text : Text) :
    Except Fault (Entries Value × Text) := do
  let (key, rest) ← if text.head? = some '"' then stringLiteral text else identifier text
  let rest ← expectChar ':' rest.skipBlanks
  let (v, rest) ← value rest.skipBlanks
  return (read.insert key v, rest)

/-- An argument of a call, with the number of arguments without a name before it: such an
argument goes under its number. -/
def callItem (value : Text → Except Fault (Value × Text)) (read : Entries Value × Nat)
    (text : Text) : Except Fault ((Entries Value × Nat) × Text) :=
  if startsAttribute text then do
    let (name, rest) ← identifier text
    let rest ← expectChar '=' rest.skipBlanks
    let (v, rest) ← value rest.skipBlanks
    return ((read.1.insert name v, read.2), rest)
  else do
    let (v, rest) ← value text
    return ((read.1.insert (toString read.2) v, read.2 + 1), rest)

/-- The value at the head of a text. The fuel bounds the nesting. -/
def value (make : Constructors) : Nat → Text → Except Fault (Value × Text)
  | 0, text => .error (.atHead (.expectedValue text.head?) text)
  | fuel + 1, text =>
      match text with
      | [] => .error (.atHead (.expectedValue none) [])
      | c :: cs =>
          if c = '"' then do
            let (s, rest) ← stringLiteral (c :: cs)
            return (.string s, rest)
          else if c = '[' then do
            let (items, rest) ← bracketed ']' (arrayItem (value make fuel)) [] cs
            return (.array items.reverse, rest)
          else if c = '\x7b' then do
            let (entries, rest) ← bracketed '\x7d' (mapItem (value make fuel)) [] cs
            return (.map entries, rest)
          else if c = '$' then do
            let (segments, rest) ← path cs
            return (make.reference segments, rest)
          else if c = '-' || c.isDigit then do
            let (n, rest) ← numberLiteral (c :: cs)
            return (.number n, rest)
          else
            match identifier? (c :: cs) with
            | none => .error (.atHead (.expectedValue (some c)) (c :: cs))
            | some (name, rest) =>
                if name = "true" then .ok (.bool true, rest)
                else if name = "false" then .ok (.bool false, rest)
                else if name = "null" then .ok (.null, rest)
                else if rest.head? = some '(' then do
                  let (arguments, rest) ←
                    bracketed ')' (callItem (value make fuel)) ([], 0) rest.tail
                  return (make.call name arguments.1, rest)
                else .error ⟨.unknownIdentifier name, c :: cs, rest⟩

/-- The expression at the head of a text. -/
def expression (make : Constructors) (text : Text) : Except Fault (Value × Text) :=
  value make (text.length + 1) text

end TaggedText.Grammar
