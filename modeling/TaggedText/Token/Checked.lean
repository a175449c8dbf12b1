import TaggedText.Token

/-!
# Reading with checked line numbers

A program may also be built so that a sum that does not fit in a word stops it. The reading is the
same then, but each sum that makes a line number is checked where it is made: the first line, the
line feeds of each text run, the line after a directive, and the two places of a syntax error. The
sums are made in the order of the document, so one that does not fit stops the reading before a
directive further on can be refused.
-/
namespace TaggedText

/-- What ends a checked reading early. -/
inductive Halt where
  | overflow
  | refused (e : LexError)
  deriving DecidableEq, Repr

namespace Layout

/-- Whether the line that is `lines` further on has a number. -/
def checkLine (line : UInt64) (lines : Nat) : Except Halt Unit :=
  if line.toNat + lines < UInt64.size then .ok () else .error .overflow

namespace Site

/-- Whether the line of an offset in the body without its blanks has a number. -/
def checkPlace (site : Site) (offset : Nat) : Except Halt Unit :=
  checkLine site.cursor.line (site.source.takeBytes (site.reach offset)).newlines

/-- Whether the lines of a directive and of a syntax error in it have numbers. -/
def checkLines (grammar : Grammar) (site : Site) : Except Halt Unit := do
  checkLine site.cursor.line 1
  match grammar site.body.trim with
  | .error (.malformed e) => do
      site.checkPlace e.start
      site.checkPlace e.stop
  | _ => return ()

/-- The text run before a site, which begins on `line`, and the directive at it. -/
def checkedTokens (grammar : Grammar) (line : UInt64) (site : Site) :
    Except Halt (List Token) := do
  checkLine line site.run.newlines
  site.checkLines grammar
  (site.tokens grammar).mapError .refused

end Site

/-- The tokens of sites in a row, the first of which begins on `line`. The run behind the last is
`tail`. -/
def checkedSites (grammar : Grammar) (tail : Text) (line : UInt64) :
    List Site → Except Halt (List Token)
  | [] => do
      checkLine line tail.newlines
      return []
  | site :: sites => do
      let tokens ← site.checkedTokens grammar line
      let others ← checkedSites grammar tail site.cursor.line sites
      return tokens ++ others

end Layout

namespace Token

/-- The tokens of a text that follows `firstLine` other lines, if all its lines have numbers. -/
def ofTextChecked (grammar : Grammar) (firstLine : UInt64) (text : String) :
    Except Halt (List Token) := do
  let layout := Layout.ofText firstLine text.toList
  Layout.checkLine firstLine 1
  let tokens ← Layout.checkedSites grammar layout.tail (firstLine + 1) layout.sites
  return tokens ++ [layout.lastToken]

end Token

end TaggedText
