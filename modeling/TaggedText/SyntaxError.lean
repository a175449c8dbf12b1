import TaggedText.Text

/-!
# Syntax errors

A syntax error names its cause and the bytes of the body it is about. While a body is
read, the place of an error is held as what is left of the body, from the place on and
behind it; offsets are computed once, when the error leaves the reader.
-/
namespace TaggedText

/-- Why a body is no directive. A character that was found is missing at the end of the body. -/
inductive SyntaxErrorKind where
  | emptyTag
  | expectedTagName
  | expectedValue (found : Option Char)
  | expected (wanted : Char) (found : Option Char)
  | expectedIdentifier (found : Option Char)
  | unterminatedString
  | unknownIdentifier (name : String)
  | trailingInput (found : Char)
  | invalidNumber (text : String)
  deriving DecidableEq, Repr

namespace SyntaxErrorKind

def describe : Option Char → String
  | some c => "'" ++ c.toString ++ "'"
  | none => "end of tag"

/-- The wording of a cause. -/
def message : SyntaxErrorKind → String
  | emptyTag => "empty tag"
  | expectedTagName => "expected tag name"
  | expectedValue found => "expected attribute value, got " ++ describe found
  | expected wanted found => "expected '" ++ wanted.toString ++ "', got " ++ describe found
  | expectedIdentifier found => "expected identifier, got " ++ describe found
  | unterminatedString => "unterminated quoted string"
  | unknownIdentifier name => "unexpected identifier: " ++ name
  | trailingInput found => "unexpected character: " ++ found.toString
  | invalidNumber text => "invalid number: " ++ text

end SyntaxErrorKind

/-- A syntax error with byte offsets into the body. -/
structure SyntaxError where
  kind : SyntaxErrorKind
  start : Nat
  stop : Nat
  deriving DecidableEq, Repr

namespace SyntaxError

def message (e : SyntaxError) : String :=
  e.kind.message ++ " at offset " ++ toString e.start

end SyntaxError

/-- A syntax error whose place is given by what is left of the body. -/
structure Fault where
  kind : SyntaxErrorKind
  /-- The body from the place on. -/
  here : Text
  /-- The body behind the place. -/
  past : Text
  deriving DecidableEq, Repr

namespace Fault

/-- An error about the next character, or about the end of the body. -/
def atHead (kind : SyntaxErrorKind) (text : Text) : Fault :=
  ⟨kind, text, text.tail⟩

/-- The error in a given body. -/
def locate (fault : Fault) (body : Text) : SyntaxError :=
  { kind := fault.kind
    start := body.width - fault.here.width
    stop := body.width - fault.past.width }

end Fault

end TaggedText
