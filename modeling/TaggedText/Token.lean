import TaggedText.Grammar
import TaggedText.Layout

/-!
# Tokens of a document

The tokens of a document are those of its layout: a text run, a directive, a text run,
and so on, the last being a text run. Their spans cover the document without gaps, although
the content of a text run may be shorter than its span.

The grammar is asked about each body in turn. A syntax error becomes part of the token,
with its place in the document. Any other refusal ends the reading and names the directive
it came from.

Line numbers are words, here as in the layout: a sum that does not fit in a word wraps around.
-/
namespace TaggedText

/-- A directive as it stands in the document. -/
structure Directive where
  /-- The directive with its delimiters. -/
  source : String
  /-- Its line and the line after it. -/
  lines : UInt64 × UInt64
  /-- Columns of its first byte and of the byte behind it. -/
  columns : Nat × Nat
  /-- Whether something else stands on its lines. -/
  inline : Bool
  deriving DecidableEq, Repr

namespace Directive

/-- From the line and column of its beginning to those of its end. -/
def location (d : Directive) : Location :=
  ⟨⟨d.lines.1, d.columns.1⟩, ⟨d.lines.2, d.columns.2⟩⟩

end Directive

/-- A syntax error with its place in the document. -/
structure DirectiveError where
  message : String
  location : Location
  deriving DecidableEq, Repr

namespace DirectiveError

def describe (e : DirectiveError) : String :=
  e.message ++ " at line " ++ toString e.location.start.line ++ ", character "
    ++ toString e.location.start.character

end DirectiveError

/-- What a token is: a text run, or a directive with its meaning or the error in it. -/
inductive Lexeme where
  | text (content : String)
  | directive (directive : Directive) (reading : Except DirectiveError Descriptor)

namespace Lexeme

/-- A directive whose body has a meaning. -/
def ofDescriptor (descriptor : Descriptor) (directive : Directive) : Lexeme :=
  .directive directive (.ok descriptor)

/-- Change of the nesting depth. Neither a text run nor an error has any. -/
def nesting : Lexeme → Int
  | text _ => 0
  | directive _ (.ok (.opening _ _)) => 1
  | directive _ (.ok (.closing _)) => -1
  | directive _ (.ok (.selfClosing _ _)) => 0
  | directive _ (.ok (.annotating _)) => 0
  | directive _ (.error _) => 0

/-- A directive changes the depth as its descriptor does. -/
@[simp] theorem nesting_ofDescriptor (descriptor : Descriptor) (directive : Directive) :
    (ofDescriptor descriptor directive).nesting = descriptor.nesting := by
  cases descriptor with
  | opening name attributes => rfl
  | closing name => rfl
  | selfClosing name attributes => rfl
  | annotating attributes => rfl

end Lexeme

/-- A lexeme with its bytes in the document. -/
structure Token where
  lexeme : Lexeme
  start : Nat
  stop : Nat

/-- A grammar's own reason to give up, at the directive where it did. -/
structure LexError where
  line : UInt64
  offset : Nat
  cause : String
  deriving DecidableEq, Repr

namespace LexError

def message (e : LexError) : String :=
  "tag grammar failed at line " ++ toString e.line ++ ", offset " ++ toString e.offset ++ ": "
    ++ e.cause

end LexError

namespace Layout

open Delimiter

namespace Site

/-- The site as a token records it. -/
def directive (site : Site) : Directive :=
  { source := String.ofList site.source
    lines := (site.cursor.line, site.cursor.line + 1)
    columns := (site.cursor.column, site.cursor.column + site.source.width)
    inline := !site.block }

/-- Bytes from the opening delimiter to the first character of the body that is not blank. -/
def bodyStart (site : Site) : Nat :=
  opening.width + (site.body.width - site.body.skipBlanks.width)

/-- Bytes from the opening delimiter to the closing one. -/
def bodyStop (site : Site) : Nat :=
  opening.width + site.body.width

/-- Bytes from the opening delimiter to an offset in the body without its blanks. An offset past
the body counts as its end. -/
def reach (site : Site) (offset : Nat) : Nat :=
  min (site.bodyStart + offset) site.bodyStop

/-- An error in the body without its blanks, placed in the document. -/
def errorAt (site : Site) (e : SyntaxError) : DirectiveError :=
  ⟨e.kind.message, ⟨site.place (site.reach e.start), site.place (site.reach e.stop)⟩⟩

/-- The directive as a grammar reads it. -/
def lexeme (grammar : Grammar) (site : Site) : Except LexError Lexeme :=
  match grammar site.body.trim with
  | .ok d => .ok (.ofDescriptor d site.directive)
  | .error (.malformed e) => .ok (.directive site.directive (.error (site.errorAt e)))
  | .error (.fatal cause) => .error ⟨site.cursor.line, site.cursor.offset, cause⟩

/-- The text run before a site, and the directive at it. -/
def tokens (grammar : Grammar) (site : Site) : Except LexError (List Token) := do
  let lexeme ← site.lexeme grammar
  let start := site.cursor.offset
  return [
    ⟨.text (String.ofList site.content), start - site.run.width, start⟩,
    ⟨lexeme, start, site.stop⟩]

end Site

/-- The last text run. -/
def lastToken (layout : Layout) : Token :=
  ⟨.text (String.ofList layout.tail), layout.tailStart, layout.tailStart + layout.tail.width⟩

/-- The tokens of a layout as a grammar reads them. -/
def tokens (grammar : Grammar) (layout : Layout) : Except LexError (List Token) := do
  let parts ← layout.sites.mapM (Site.tokens grammar)
  return parts.flatten ++ [layout.lastToken]

end Layout

namespace Token

/-- The tokens of a text that follows `firstLine` other lines. The line numbers wrap around at the
last word; `Token.ofTextChecked` stops there instead. -/
def ofTextWith (grammar : Grammar) (firstLine : UInt64) (text : String) :
    Except LexError (List Token) :=
  (Layout.ofText firstLine text.toList).tokens grammar

/-- The tokens of a text as the built-in grammar reads it. -/
def ofText (text : String) : Except LexError (List Token) :=
  ofTextWith Grammar.standard 0 text

end Token

end TaggedText
