import TaggedText.Proofs.Chunks
import TaggedText.Proofs.Layout.Frames

/-!
# Reading back a document that was put together

A document may be put together from text runs and bodies of directives. If no run holds an opening
delimiter and the search for the closing delimiter of a body stops at its end, then the tokens of
the document are these parts, each where it was put, and a directive has the meaning that the grammar
gives to its body. Quotes, backslashes and closing delimiters in a run do not matter, nor do
opening delimiters in a body, nor closing delimiters in a string of a body.
-/
namespace TaggedText

open Delimiter Layout

/-- From which byte to which each of some texts in a row goes. -/
def Text.spans (start : Nat) : List Text → List (Nat × Nat)
  | [] => []
  | piece :: pieces => (start, start + piece.width) :: spans (start + piece.width) pieces

def Token.span (token : Token) : Nat × Nat :=
  (token.start, token.stop)

def Frame.span (frame : Frame) : Nat × Nat :=
  (frame.start, frame.stop)

/-- The token of a directive has the meaning, or the error, that the grammar answers on its body.
What it opens counts up, what it closes counts down. -/
def Token.Answers (grammar : Grammar) (body : Text) (token : Token) : Prop :=
  match grammar body.trim with
  | .ok (.opening name attributes) => token.lexeme.nesting = 1 ∧
      ∃ directive, token.lexeme = .directive directive (.ok (.opening name attributes))
  | .ok (.closing name) => token.lexeme.nesting = -1 ∧
      ∃ directive, token.lexeme = .directive directive (.ok (.closing name))
  | .ok (.selfClosing name attributes) => token.lexeme.nesting = 0 ∧
      ∃ directive, token.lexeme = .directive directive (.ok (.selfClosing name attributes))
  | .ok (.annotating attributes) => token.lexeme.nesting = 0 ∧
      ∃ directive, token.lexeme = .directive directive (.ok (.annotating attributes))
  | .error (.malformed e) => token.lexeme.nesting = 0 ∧
      ∃ directive error, token.lexeme = .directive directive (.error error) ∧
        error.message = e.kind.message
  | .error (.fatal _) => False

/-- The last text run of a document, or a text run, the body of the directive behind it, and what
follows that directive. -/
inductive Assembly where
  | run (text : Text)
  | directive (before body : Text) (rest : Assembly)

namespace Assembly

def source : Assembly → Text
  | run text => text
  | directive before body rest => before ++ (opening ++ body ++ closing) ++ rest.source

/-- The text runs, and the directives with their delimiters, in turn. -/
def pieces : Assembly → List Text
  | run text => [text]
  | directive before body rest => before :: (opening ++ body ++ closing) :: rest.pieces

def runs : Assembly → List Text
  | run text => [text]
  | directive before _ rest => before :: rest.runs

def bodies : Assembly → List Text
  | run _ => []
  | directive _ body rest => body :: rest.bodies

/-- Runs without an opening delimiter, and bodies that reach to the closing delimiter found. -/
structure Separable (assembly : Assembly) : Prop where
  clear : ∀ run ∈ assembly.runs, ¬ opening <:+: run
  closed : ∀ body ∈ assembly.bodies, closingOffset? (body ++ closing) 0 = some body.width

/-- The tokens are the parts of the document. -/
structure ReadBack (grammar : Grammar) (assembly : Assembly) (tokens : List Token) : Prop where
  length_eq : tokens.length = 2 * assembly.bodies.length + 1
  isRun_iff : ∀ i token, tokens[i]? = some token → (token.isRun ↔ i % 2 = 0)
  spans_eq : tokens.map Token.span = Text.spans 0 assembly.pieces
  sources_eq : tokens.map (Token.source · assembly.source) = assembly.pieces
  answers : List.Forall₂ (Token.Answers grammar) assembly.bodies (Token.directives tokens)

end Assembly

namespace Text

theorem length_spans (start : Nat) (pieces : List Text) :
    (spans start pieces).length = pieces.length := by
  induction pieces generalizing start with
  | nil => rfl
  | cons piece pieces ih => rw [spans, List.length_cons, List.length_cons, ih]

/-- The pieces stand between the ends of their spans. -/
theorem map_slice_spans (passed : Text) (pieces : List Text) :
    (spans passed.width pieces).map (fun span => slice (passed ++ pieces.flatten) span.1 span.2) =
      pieces := by
  induction pieces generalizing passed with
  | nil => rfl
  | cons piece pieces ih =>
      have hpiece := slice_append passed piece pieces.flatten
      have hrest := ih (passed ++ piece)
      rw [List.append_assoc] at hpiece hrest
      rw [width_append] at hpiece hrest
      rw [spans, List.map_cons, List.flatten_cons, hpiece, hrest]

end Text

namespace Delimiter

/-- A body that reaches to the closing delimiter found does so whatever follows. -/
theorem splitBody?_of_closingOffset? {body : Text}
    (h : closingOffset? (body ++ closing) 0 = some body.width) (rest : Text) :
    splitBody? (body ++ closing ++ rest) = some (body, rest) := by
  have hoffset := closingOffset?_append [] (body ++ closing)
  rw [Text.width_nil, List.nil_append, h] at hoffset
  obtain ⟨⟨found, behind⟩, hsplit, hwidth⟩ := Option.map_eq_some_iff.mp hoffset.symm
  rw [List.nil_append] at hwidth
  have htext := eq_of_splitBody? hsplit
  have hbehind : behind = [] := by
    apply Text.eq_nil_of_width_eq_zero
    have hwidths := congrArg Text.width htext
    simp only [Text.width_append] at hwidths hwidth
    omega
  subst hbehind
  rw [List.append_nil] at htext
  obtain rfl : body = found := List.append_cancel_right htext
  exact splitBody?_append hsplit rest

end Delimiter

namespace Assembly

variable {assembly rest : Assembly} {before body : Text} {grammar : Grammar}

def cuts : Assembly → List Cut
  | run _ => []
  | directive before body rest => ⟨before, body, rest.source⟩ :: rest.cuts

def lastRun : Assembly → Text
  | run text => text
  | directive _ _ rest => rest.lastRun

theorem flatten_pieces (assembly : Assembly) : assembly.pieces.flatten = assembly.source := by
  induction assembly with
  | run text => exact List.append_nil text
  | directive before body rest ih =>
      rw [pieces, List.flatten_cons, List.flatten_cons, ih, source]
      exact (List.append_assoc before _ _).symm

theorem length_pieces (assembly : Assembly) :
    assembly.pieces.length = 2 * assembly.bodies.length + 1 := by
  induction assembly with
  | run text => rfl
  | directive before body rest ih =>
      simp only [pieces, bodies, List.length_cons, ih]
      omega

theorem map_body_cuts (assembly : Assembly) : assembly.cuts.map Cut.body = assembly.bodies := by
  induction assembly with
  | run text => rfl
  | directive before body rest ih => rw [cuts, List.map_cons, ih, bodies]

theorem Separable.of_directive (h : (directive before body rest).Separable) : rest.Separable where
  clear run hrun := h.clear run (List.mem_cons_of_mem before hrun)
  closed other hother := h.closed other (List.mem_cons_of_mem body hother)

/-- The document is cut where its parts were put together. -/
theorem Separable.cuts_source (h : assembly.Separable) :
    Layout.cuts assembly.source = (assembly.cuts, assembly.lastRun) := by
  induction assembly with
  | run text =>
      have hclear : Clear text := h.clear text List.mem_cons_self
      have hcuts : Layout.cuts (text ++ []) = _ := cuts_append_of_clear hclear nofun
      rwa [List.append_nil, @cuts_of_eq_none [] rfl, behindRun, List.append_nil] at hcuts
  | directive before body rest ih =>
      have hclear : Clear before := h.clear before List.mem_cons_self
      -- A run may end with the character that begins the delimiter behind it.
      have hapart : Apart before (opening ++ body ++ closing ++ rest.source) :=
        fun _ => by simp [opening]
      have hsplit := splitBody?_of_closingOffset? (h.closed body List.mem_cons_self) rest.source
      have hfirst : firstCut? [] (opening ++ body ++ closing ++ rest.source) =
          some ⟨[], body, rest.source⟩ := by
        rw [opening, List.append_assoc, List.append_assoc, ← List.append_assoc body]
        change firstCut? [] ('{' :: '%' :: (body ++ closing ++ rest.source)) = _
        rw [firstCut?, hsplit]
        rfl
      rw [source, List.append_assoc before, cuts_append_of_clear hclear hapart,
        cuts_of_eq_some hfirst, ih h.of_directive, behindRun, List.append_nil]
      rfl

theorem map_span_frames (cursor : Cursor) (cut : Cut) :
    (siteAt cursor cut).frames.map Frame.span =
      [(cursor.offset, cursor.offset + cut.run.width),
        (cursor.offset + cut.run.width,
          cursor.offset + cut.run.width + (opening ++ cut.body ++ closing).width)] := by
  have hreached := offset_siteAt cursor cut
  have hbegin : (siteAt cursor cut).cursor.offset - cut.run.width = cursor.offset := by
    omega
  change [((siteAt cursor cut).cursor.offset - cut.run.width, (siteAt cursor cut).cursor.offset),
    ((siteAt cursor cut).cursor.offset,
      (siteAt cursor cut).cursor.offset + (opening ++ cut.body ++ closing).width)] = _
  rw [hbegin, hreached]

/-- Sites and the last run stand in a row. -/
theorem map_span_sites (assembly : Assembly) (cursor : Cursor) :
    ((sitesFrom cursor assembly.cuts).1.flatMap Site.frames).map Frame.span ++
      [((sitesFrom cursor assembly.cuts).2.offset,
        (sitesFrom cursor assembly.cuts).2.offset + assembly.lastRun.width)] =
      Text.spans cursor.offset assembly.pieces := by
  induction assembly generalizing cursor with
  | run text => rfl
  | directive before body rest ih =>
      have hsite := map_span_frames cursor ⟨before, body, rest.source⟩
      have hafter := offset_after (siteAt cursor ⟨before, body, rest.source⟩)
      have hrest := ih (siteAt cursor ⟨before, body, rest.source⟩).after
      rw [offset_siteAt] at hafter
      rw [hafter] at hrest
      rw [cuts, sitesFrom, List.flatMap_cons, List.map_append, hsite, List.append_assoc]
      exact congrArg (_ ++ ·) hrest

theorem map_body_sites (cursor : Cursor) (list : List Cut) :
    (sitesFrom cursor list).1.map Site.body = list.map Cut.body := by
  induction list generalizing cursor with
  | nil => rfl
  | cons cut list ih => rw [sitesFrom, List.map_cons, List.map_cons, ih, siteAt]

/-- The token of a site shows the answer of the grammar on the body of the site. -/
theorem answers_directiveToken {site : Site} {token : Token}
    (h : site.directiveToken grammar = .ok token) : token.Answers grammar site.body := by
  unfold Site.directiveToken Site.lexeme at h
  unfold Token.Answers
  cases hbody : grammar site.body.trim with
  | ok descriptor =>
      rw [hbody] at h
      cases h
      cases descriptor with
      | opening name attributes => exact ⟨rfl, site.directive, rfl⟩
      | closing name => exact ⟨rfl, site.directive, rfl⟩
      | selfClosing name attributes => exact ⟨rfl, site.directive, rfl⟩
      | annotating attributes => exact ⟨rfl, site.directive, rfl⟩
  | error refusal =>
      rw [hbody] at h
      cases refusal with
      | malformed e =>
          cases h
          exact ⟨rfl, site.directive, site.errorAt e, rfl, rfl⟩
      | fatal cause => cases h

theorem forall₂_answers {sites : List Site} {tokens : List Token}
    (h : sites.mapM (Site.directiveToken grammar) = .ok tokens) :
    List.Forall₂ (Token.Answers grammar) (sites.map Site.body) tokens :=
  List.forall₂_map_left_iff.mpr <|
    (forall₂_of_mapM_eq_ok h).imp fun _ _ htoken => answers_directiveToken htoken

end Assembly

open Assembly

/-- A document that was put together from separable parts is read back as these parts. -/
theorem exists_readBack {grammar : Grammar} (hgrammar : grammar.NeverGivesUp) (firstLine : UInt64)
    {assembly : Assembly} (hassembly : assembly.Separable) :
    ∃ tokens, Token.ofTextWith grammar firstLine (String.ofList assembly.source) = .ok tokens ∧
      assembly.ReadBack grammar tokens := by
  have ⟨tokens, htokens⟩ := Layout.exists_tokens hgrammar
    (Layout.ofText firstLine (String.ofList assembly.source).toList)
  have hcuts : Layout.cuts (String.ofList assembly.source).toList =
      (assembly.cuts, assembly.lastRun) := by
    rw [String.toList_ofList, hassembly.cuts_source]
  have hspans : tokens.map Token.span = Text.spans 0 assembly.pieces := by
    have hframes := congrArg (List.map Frame.span) (map_frame_tokens htokens)
    rw [List.map_map, frames, Layout.ofText, hcuts, List.map_append] at hframes
    exact hframes.trans (map_span_sites assembly ⟨0, firstLine + 1, 0, true⟩)
  have hdirectives : (sitesFrom ⟨0, firstLine + 1, 0, true⟩ assembly.cuts).1.mapM
      (Site.directiveToken grammar) = .ok (Token.directives tokens) := by
    have hmap := map_directives grammar firstLine (String.ofList assembly.source)
    rw [Token.ofTextWith, htokens, Layout.ofText, hcuts] at hmap
    exact hmap.symm
  refine ⟨tokens, htokens, ?_, ?_, hspans, ?_, ?_⟩
  · have hlength := congrArg List.length hspans
    rwa [List.length_map, Text.length_spans, length_pieces] at hlength
  · exact fun i token => (tiles_of_ofTextWith htokens).isRun_iff
  · have hslices := Text.map_slice_spans [] assembly.pieces
    rw [flatten_pieces, List.nil_append, Text.width_nil, ← hspans, List.map_map] at hslices
    exact hslices
  · have hanswers := forall₂_answers hdirectives
    rwa [map_body_sites, map_body_cuts] at hanswers

/-- Runs that end with a brace, begin with one or hold a quotation mark, and bodies that hold both
delimiters. -/
theorem exists_readBack_braces :
    let assembly := Assembly.directive "\"é\\ %\x7d \x7b".toList
      " note text=\"%\x7d\\\"\x7b%\"\n".toList
      (.directive "\x7d\n\"".toList " \x7b% ".toList (.run "% \x7b".toList))
    let document := "\"é\\ %\x7d \x7b\x7b% note text=\"%\x7d\\\"\x7b%\"\n%\x7d\x7d\n\"" ++
      "\x7b% \x7b% %\x7d% \x7b"
    String.ofList assembly.source = document ∧ assembly.Separable ∧ ∃ tokens,
      Token.ofTextWith Grammar.standard 0 (String.ofList assembly.source) = .ok tokens ∧
        assembly.ReadBack Grammar.standard tokens := by
  intro assembly document
  have hseparable : assembly.Separable := by
    constructor
    · decide +kernel
    · decide +kernel
  exact ⟨by decide +kernel, hseparable, exists_readBack Grammar.neverGivesUp_standard 0 hseparable⟩

end TaggedText
