import TaggedText.Number.Decimal
import TaggedText.SyntaxError
import TaggedText.Value

/-!
# Identifiers, strings, numbers and paths

Each reader takes a text and gives what it read together with what is left. Identifiers
and numbers are the longest that fit. A string ends at the first quote that no backslash
hides; a backslash keeps the next character, and three letters after it stand for controls.
-/
namespace TaggedText.Grammar

def isIdentifierStart (c : Char) : Bool :=
  c.isAlpha || c = '_'

def isIdentifierChar (c : Char) : Bool :=
  c.isAlphanum || c = '_' || c = '-'

/-- The identifier at the head of a text. -/
def identifier? : Text → Option (String × Text)
  | [] => none
  | c :: cs =>
      if isIdentifierStart c then
        some (String.ofList (c :: cs.takeWhile isIdentifierChar), cs.dropWhile isIdentifierChar)
      else none

/-- The identifier at the head of a text, or the error that there is none. -/
def identifier (text : Text) : Except Fault (String × Text) :=
  match identifier? text with
  | some r => .ok r
  | none => .error (.atHead (.expectedIdentifier text.head?) text)

/-- Whether an identifier and an equals sign stand at the head of a text. -/
def startsAttribute (text : Text) : Bool :=
  match identifier? text with
  | some (_, rest) => rest.skipBlanks.head? = some '='
  | none => false

/-- One given character, and what is left behind it. -/
def expectChar (wanted : Char) : Text → Except Fault Text
  | [] => .error (.atHead (.expected wanted none) [])
  | c :: cs => if c = wanted then .ok cs else .error (.atHead (.expected wanted (some c)) (c :: cs))

/-- The character that a backslash and a character stand for. -/
def unescape (c : Char) : Char :=
  if c = 'n' then '\n' else if c = 't' then '\t' else if c = 'r' then '\r' else c

/-- The rest of a string behind its first quote; `read` holds what was read, last first. -/
def stringRest (read : Text) : Text → Option (String × Text)
  | [] => none
  | '"' :: cs => some (String.ofList read.reverse, cs)
  | '\\' :: c :: cs => stringRest (unescape c :: read) cs
  | c :: cs => stringRest (c :: read) cs

/-- The string whose first quote stands at the head of a text. -/
def stringLiteral (text : Text) : Except Fault (String × Text) :=
  match stringRest [] text.tail with
  | some r => .ok r
  | none => .error ⟨.unterminatedString, text, []⟩

/-- A minus sign that may be missing, digits, and a point with digits that may be missing;
and what is left. -/
def splitNumber (text : Text) : Text × Text :=
  let (sign, rest) :=
    match text with
    | '-' :: cs => (['-'], cs)
    | cs => ([], cs)
  let whole := rest.takeWhile Char.isDigit
  match rest.dropWhile Char.isDigit with
  | '.' :: cs =>
      (sign ++ whole ++ '.' :: cs.takeWhile Char.isDigit, cs.dropWhile Char.isDigit)
  | cs => (sign ++ whole, cs)

/-- The number at the head of a text. -/
def numberLiteral (text : Text) : Except Fault (Number × Text) :=
  let (literal, rest) := splitNumber text
  match Number.ofText? literal with
  | some n => .ok (n, rest)
  | none => .error ⟨.invalidNumber (String.ofList literal), text, rest⟩

/-- The inside of brackets in a path: a string or an index. -/
def bracketSegment (text : Text) : Except Fault (PathSegment × Text) :=
  if text.head? = some '"' then do
    let (name, rest) ← stringLiteral text
    return (.key name, rest)
  else
    let digits := text.takeWhile Char.isDigit
    let rest := text.dropWhile Char.isDigit
    match index? digits with
    | some n => .ok (.index n, rest)
    | none => .error ⟨.invalidNumber (String.ofList digits), text, rest⟩

/-- Further segments of a path, as many as follow without a gap. The fuel bounds their number;
`read` holds the segments so far, last first. -/
def pathRest : Nat → List PathSegment → Text → Except Fault (List PathSegment × Text)
  | 0, read, text => .ok (read.reverse, text)
  | fuel + 1, read, text =>
      match text with
      | '.' :: cs => do
          let (name, rest) ← identifier cs
          pathRest fuel (.key name :: read) rest
      | '[' :: cs => do
          let (segment, rest) ← bracketSegment (Text.skipBlanks cs)
          let rest ← expectChar ']' rest.skipBlanks
          pathRest fuel (segment :: read) rest
      | _ => .ok (read.reverse, text)

/-- A path behind its dollar sign. -/
def path (text : Text) : Except Fault (List PathSegment × Text) := do
  let (name, rest) ← identifier text
  pathRest rest.length [.key name] rest

end TaggedText.Grammar
