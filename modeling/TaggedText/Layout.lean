import TaggedText.Delimiter
import TaggedText.Location

/-!
# The layout of a document

The layout says where the directives of a document stand before anything is known
about what they mean. A document is a text run, a directive, a text run, and so on,
and it ends with a text run. An opening delimiter whose directive is never closed
belongs to the text run, and the search goes on right behind it.

A directive that stands alone between two line feeds, blanks aside, is a block. A
block takes the rest of its line out of the text run before it, so that removing the
directive leaves no blank line behind.

Line numbers count the line feeds of the text runs only. The beginning of a line,
from which columns are counted, is also moved by the line feeds inside a directive. A
line number is a word, and a sum that does not fit in a word wraps around.
-/
namespace TaggedText.Layout

open Delimiter

/-- A text run, the body of the directive after it, and what follows that directive. -/
structure Cut where
  run : Text
  body : Text
  rest : Text
  deriving DecidableEq, Repr

/-- The first closed directive of a text; `passed` holds the run so far, last character first. -/
def firstCut? (passed : Text) : Text → Option Cut
  | [] => none
  | '{' :: '%' :: cs =>
      match splitBody? cs with
      | some (body, rest) => some ⟨passed.reverse, body, rest⟩
      | none => firstCut? ('%' :: '{' :: passed) cs
  | c :: cs => firstCut? (c :: passed) cs

theorem eq_of_firstCut? {passed text : Text} {cut : Cut} (h : firstCut? passed text = some cut) :
    passed.reverse ++ text = cut.run ++ opening ++ cut.body ++ closing ++ cut.rest := by
  fun_induction firstCut? passed text with
  | case1 => cases h
  | case2 passed cs body rest hs =>
      cases h
      simp [eq_of_splitBody? hs, opening]
  | case3 passed cs hs ih => simpa using ih h
  | case4 passed c cs _ ih => simpa using ih h

theorem length_lt_of_firstCut? {text : Text} {cut : Cut} (h : firstCut? [] text = some cut) :
    cut.rest.length < text.length := by
  have e := congrArg List.length (eq_of_firstCut? h)
  simp [opening, closing] at e
  omega

/-- The directives of a text in order, and the text run after the last. -/
def cuts (text : Text) : List Cut × Text :=
  match _h : firstCut? [] text with
  | none => ([], text)
  | some cut =>
      let r := cuts cut.rest
      (cut :: r.1, r.2)
termination_by text.length
decreasing_by exact length_lt_of_firstCut? _h

/-- The place a scan has reached. -/
structure Cursor where
  /-- Bytes passed. -/
  offset : Nat
  /-- Number of the line, a word that wraps around. -/
  line : UInt64
  /-- Bytes passed on the line. -/
  column : Nat
  /-- Whether only blanks were passed on the line. -/
  blank : Bool
  deriving DecidableEq, Repr

namespace Cursor

/-- Past one character. A line feed begins a line, whose number is `step` more in words. -/
def pass (step : UInt64) (cursor : Cursor) (c : Char) : Cursor :=
  if c = '\n' then
    { offset := cursor.offset + 1, line := cursor.line + step, column := 0, blank := true }
  else
    { cursor with
      offset := cursor.offset + c.utf8Size
      column := cursor.column + c.utf8Size
      blank := cursor.blank && Text.isBlank c }

/-- Past a text run. -/
def passRun (cursor : Cursor) (run : Text) : Cursor :=
  run.foldl (pass 1) cursor

/-- Past a directive, whose line feeds are not counted. -/
def passDirective (cursor : Cursor) (source : Text) : Cursor :=
  source.foldl (pass 0) cursor

end Cursor

/-- A directive where it stands. -/
structure Site where
  /-- The text run before it. -/
  run : Text
  body : Text
  /-- The cursor at its opening delimiter. -/
  cursor : Cursor
  /-- Whether it stands alone on its line. -/
  block : Bool
  deriving DecidableEq, Repr

namespace Site

/-- The directive with its delimiters. -/
def source (site : Site) : Text :=
  opening ++ site.body ++ closing

/-- Byte offset behind the directive. -/
def stop (site : Site) : Nat :=
  site.cursor.offset + site.source.width

/-- The text run as the document keeps it. -/
def content (site : Site) : Text :=
  if site.block then site.run.beforeLastLine else site.run

/-- The place of a byte of the directive, counted from its opening delimiter. -/
def place (site : Site) (bytes : Nat) : Place :=
  let before := site.source.takeBytes bytes
  { line := site.cursor.line + .ofNat before.newlines
    character :=
      if before.newlines = 0 then site.cursor.column + bytes
      else bytes - (before.width - Text.width before.lastLine) }

/-- The cursor behind the directive. -/
def after (site : Site) : Cursor :=
  site.cursor.passDirective site.source

end Site

/-- The site of a cut whose text run begins at the cursor. -/
def siteAt (cursor : Cursor) (cut : Cut) : Site :=
  let reached := cursor.passRun cut.run
  { run := cut.run
    body := cut.body
    cursor := reached
    block := reached.blank && cut.rest.restOfLineBlank }

/-- The sites of consecutive cuts, and the cursor behind the last. -/
def sitesFrom (cursor : Cursor) : List Cut → List Site × Cursor
  | [] => ([], cursor)
  | cut :: cuts =>
      let site := siteAt cursor cut
      let r := sitesFrom site.after cuts
      (site :: r.1, r.2)

end Layout

/-- The directives of a document where they stand, and the text run behind the last. -/
structure Layout where
  sites : List Layout.Site
  tail : Text
  /-- Byte offset of the last text run. -/
  tailStart : Nat
  deriving DecidableEq, Repr

namespace Layout

/-- The layout of a text that follows `firstLine` other lines. The line numbers wrap around. -/
def ofText (firstLine : UInt64) (text : Text) : Layout :=
  let c := cuts text
  let r := sitesFrom ⟨0, firstLine + 1, 0, true⟩ c.1
  { sites := r.1, tail := c.2, tailStart := r.2.offset }

end Layout

end TaggedText
