import TaggedText.Proofs.Layout.Frames
import TaggedText.Proofs.Layout.Placement

/-!
# What text runs keep

The content of a text run is all that stands between two directives, unless the second is a block.
A block takes the line it begins on, so the run before it keeps what stands before its last line
feed. A run without a line feed can stand before a block only where the document begins: anywhere
else the directive before it would be on the line too.

What a run loses is blank. So the contents and the directives together hold every character of the
document that is not.
-/
namespace TaggedText

open Delimiter Layout

/-- What the run before a directive keeps as its content. `begins` says that the document begins
with the run. -/
inductive Keeps (begins : Prop) (run : Text) : Bool → Text → Prop
  | whole : Keeps begins run true run
  | lastLine {kept line : Text} : run = kept ++ '\n' :: line → '\n' ∉ line →
      (∀ c ∈ line, Text.isBlank c) → Keeps begins run false kept
  | nothing : begins → '\n' ∉ run → (∀ c ∈ run, Text.isBlank c) → Keeps begins run false []

theorem Keeps.exists_blank {begins : Prop} {run content : Text} {inline : Bool}
    (h : Keeps begins run inline content) :
    ∃ lost, run = content ++ lost ∧ ∀ c ∈ lost, Text.isBlank c := by
  cases h with
  | whole => exact ⟨[], (List.append_nil run).symm, by simp⟩
  | lastLine hrun _ hblank =>
      refine ⟨_, hrun, List.forall_mem_cons.mpr ⟨?_, hblank⟩⟩
      decide
  | nothing _ _ hblank => exact ⟨run, rfl, hblank⟩

namespace Layout

variable {site : Site} {document done : Text} {begins : Prop}

theorem keeps_content (h : site.StandsBehind document done)
    (hdone : begins ∧ done = [] ∨ closing <:+ done) :
    Keeps begins site.run (!site.block) site.content := by
  obtain ⟨cursor, cut, rfl, hbehind, -⟩ := h
  unfold Site.content
  cases hblock : (siteAt cursor cut).block with
  | false => exact .whole
  | true =>
      rw [block_siteAt hbehind, Bool.and_eq_true, List.all_eq_true] at hblock
      have hblank := hblock.1
      have hrun : (siteAt cursor cut).run = cut.run := rfl
      rw [if_pos rfl, hrun]
      by_cases h : '\n' ∈ cut.run
      · rw [Text.lastLine_append_of_mem done h] at hblank
        exact .lastLine (Text.eq_append_of_mem h) (Text.newline_notMem_lastLine _) hblank
      · rw [Text.lastLine_append_of_notMem done h, List.forall_mem_append] at hblank
        rw [Text.beforeLastLine_of_notMem h]
        rcases hdone with ⟨hbegins, -⟩ | ⟨before, rfl⟩
        · exact .nothing hbegins h hblank.2
        · -- The directive before the run ends on the line of the block.
          rw [Text.lastLine_append_of_notMem before (by decide), List.forall_mem_append] at hblank
          exact absurd (hblank.1.2 '%' List.mem_cons_self) (by decide)

/-- A run is the last frame, or that of a site with its directive behind it. -/
theorem exists_site_of_run {sites : List Site} {last frame : Frame} {before after : List Frame}
    {content : String} (h : sites.flatMap Site.frames ++ [last] = before ++ frame :: after)
    (hrun : frame.shown = .inl content) :
    frame = last ∧ after = [] ∨ ∃ earlier site later, sites = earlier ++ site :: later ∧
      before = earlier.flatMap Site.frames ∧ frame = site.runFrame ∧
        after.head? = some site.directiveFrame := by
  induction sites generalizing before with
  | nil =>
      cases before with
      | nil =>
          obtain ⟨rfl, rfl⟩ := List.cons.inj h
          exact .inl ⟨rfl, rfl⟩
      | cons first before => simp at h
  | cons site sites ih =>
      rw [List.flatMap_cons, Site.frames, List.cons_append, List.cons_append, List.cons_append,
        List.nil_append] at h
      cases before with
      | nil =>
          obtain ⟨rfl, rfl⟩ := List.cons.inj h
          exact .inr ⟨[], site, sites, rfl, rfl, rfl, rfl⟩
      | cons first before =>
          obtain ⟨rfl, hbehind⟩ := List.cons.inj h
          cases before with
          | nil =>
              obtain ⟨rfl, -⟩ := List.cons.inj hbehind
              cases hrun
          | cons second before =>
              obtain ⟨rfl, hlater⟩ := List.cons.inj hbehind
              rcases ih hlater with hlast | ⟨earlier, site', later, rfl, rfl, hframe, hafter⟩
              · exact .inl hlast
              · exact .inr ⟨site :: earlier, site', later, rfl, rfl, hframe, hafter⟩

end Layout

namespace Token

variable {grammar : Grammar} {firstLine : UInt64} {document content : String} {tokens : List Token}

/-- The characters that a token shows: the content of a run, or the whole directive. -/
def shown (token : Token) : Text :=
  match token.lexeme with
  | .text content => content.toList
  | .directive directive _ => directive.source.toList

/-- What the tokens of a document keep of it. -/
structure Kept (document : String) (tokens : List Token) : Prop where
  last : ∀ before run content, tokens = before ++ [run] → run.lexeme = .text content →
    content.toList = run.source document.toList
  followed : ∀ before run next after content, tokens = before ++ run :: next :: after →
    run.lexeme = .text content → ∃ directive reading, next.lexeme = .directive directive reading ∧
      Keeps (before = []) (run.source document.toList) directive.inline content.toList
  blank : ∀ run ∈ tokens, ∀ content, run.lexeme = .text content →
    ∃ lost, run.source document.toList = content.toList ++ lost ∧ ∀ c ∈ lost, Text.isBlank c
  filter_shown : (tokens.flatMap shown).filter (fun c => !Text.isBlank c) =
    document.toList.filter fun c => !Text.isBlank c

theorem exists_directive_of_frame {token : Token} {site : Site}
    (h : token.frame = site.directiveFrame) :
    ∃ reading, token.lexeme = .directive site.directive reading := by
  have hshown := congrArg Frame.shown h
  unfold frame at hshown
  dsimp only at hshown
  split at hshown
  next => cases hshown
  next directive reading heq =>
    cases hshown
    exact ⟨reading, heq⟩

/-- The last run is kept whole, and any other run is followed by a directive that says what is
kept. -/
theorem run_cases (h : ofTextWith grammar firstLine document = .ok tokens)
    {before after : List Token} {run : Token} (hsplit : tokens = before ++ run :: after)
    (hlexeme : run.lexeme = .text content) :
    after = [] ∧ content.toList = run.source document.toList ∨
      ∃ next later directive reading, after = next :: later ∧
        next.lexeme = .directive directive reading ∧
          Keeps (before = []) (run.source document.toList) directive.inline content.toList := by
  have hframes := map_frame_tokens h
  rw [hsplit, List.map_append, List.map_cons] at hframes
  have hrun : run.frame.shown = .inl content := by rw [frame, hlexeme]
  rcases exists_site_of_run hframes.symm hrun with
    ⟨hlast, hafter⟩ | ⟨earlier, site, later, hsites, hbefore, hframe, hnext⟩
  · refine .inl ⟨List.map_eq_nil_iff.mp hafter, ?_⟩
    have hstart : run.start = (Layout.ofText firstLine document.toList).tailStart :=
      congrArg Frame.start hlast
    have hstop : run.stop = Text.width document.toList :=
      (congrArg Frame.stop hlast).trans (stop_tail firstLine document.toList)
    have hcontent : content = String.ofList (cuts document.toList).2 :=
      Sum.inl.inj (hrun.symm.trans (congrArg Frame.shown hlast))
    rw [source, hstart, hstop, slice_tail, hcontent, String.toList_ofList]
  · rw [List.head?_map] at hnext
    obtain ⟨next, hhead, hdirective⟩ := Option.map_eq_some_iff.mp hnext
    obtain ⟨rest, rfl⟩ := List.head?_eq_some_iff.mp hhead
    obtain ⟨reading, hreading⟩ := exists_directive_of_frame hdirective
    refine .inr ⟨next, rest, site.directive, reading, rfl, hreading, ?_⟩
    obtain ⟨done, hstands, hdone⟩ := exists_standsBehind [] document.toList
      (List.nil_append _).symm (behind_start (firstLine + 1)) hsites
    have hsource : run.source document.toList = site.run := by
      have hstart : run.start = site.cursor.offset - site.run.width := congrArg Frame.start hframe
      have hstop : run.stop = site.cursor.offset := congrArg Frame.stop hframe
      obtain ⟨cursor, cut, rfl, hbehind, htext⟩ := hstands
      rw [source, hstart, hstop, htext]
      exact slice_run hbehind.offset_eq cut
    have hcontent : content = String.ofList site.content :=
      Sum.inl.inj (hrun.symm.trans (congrArg Frame.shown hframe))
    rw [hsource, hcontent, String.toList_ofList]
    refine keeps_content hstands (hdone.imp_left fun hfirst => ⟨?_, hfirst.2⟩)
    rw [hfirst.1] at hbefore
    exact List.map_eq_nil_iff.mp hbefore

theorem exists_lost (h : ofTextWith grammar firstLine document = .ok tokens) {run : Token}
    (hmem : run ∈ tokens) (hlexeme : run.lexeme = .text content) :
    ∃ lost, run.source document.toList = content.toList ++ lost ∧ ∀ c ∈ lost, Text.isBlank c := by
  obtain ⟨before, after, hsplit⟩ := List.append_of_mem hmem
  rcases run_cases h hsplit hlexeme with ⟨-, hwhole⟩ | ⟨_, _, _, _, -, -, hkeeps⟩
  · exact ⟨[], by rw [hwhole, List.append_nil], by simp⟩
  · exact hkeeps.exists_blank

/-- A token shows all that it takes up but blanks. -/
theorem filter_shown_eq (h : ofTextWith grammar firstLine document = .ok tokens) {token : Token}
    (hmem : token ∈ tokens) : token.shown.filter (fun c => !Text.isBlank c) =
      (token.source document.toList).filter fun c => !Text.isBlank c := by
  unfold shown
  split
  next content hlexeme =>
    obtain ⟨lost, hsource, hlost⟩ := exists_lost h hmem hlexeme
    have hnothing : lost.filter (fun c => !Text.isBlank c) = [] :=
      List.filter_eq_nil_iff.mpr fun c hc => by simp [hlost c hc]
    rw [hsource, List.filter_append, hnothing, List.append_nil]
  next directive reading hlexeme =>
    have hcover := (tiles_of_ofTextWith h).cover
    rw [(hcover.directives token hmem directive reading hlexeme).2.1, String.toList_ofList]

/-- Whatever the grammar, the tokens keep every character that is not blank, and a run loses its
last line only where a block follows. -/
theorem kept_of_ofTextWith (grammar : Grammar) (firstLine : UInt64) (document : String)
    (tokens : List Token) (h : ofTextWith grammar firstLine document = .ok tokens) :
    Kept document tokens where
  last before run content hsplit hlexeme := by
    rcases run_cases h hsplit hlexeme with ⟨-, hwhole⟩ | ⟨_, _, _, _, hafter, -⟩
    · exact hwhole
    · cases hafter
  followed before run next after content hsplit hlexeme := by
    rcases run_cases h hsplit hlexeme with
      ⟨hafter, -⟩ | ⟨_, _, directive, reading, hafter, hnext, hkeeps⟩
    · cases hafter
    · cases hafter
      exact ⟨directive, reading, hnext, hkeeps⟩
  blank run hmem content := exists_lost h hmem
  filter_shown := by
    rw [List.filter_flatMap, ← (tiles_of_ofTextWith h).cover.flatMap_source, List.filter_flatMap]
    exact List.flatMap_congr fun token hmem => filter_shown_eq h hmem

/-- The first directive is a block at the beginning and the second one further on. A line begins
inside the third, which is no block, and neither is the fourth on that line. -/
theorem kept_of_ofTextWith_wrapped :
    let document := "  \x7b% a %\x7d\nx \n \x7b% b %\x7d\ny\x7b% c\n%\x7d \x7b% d %\x7d z"
    ∃ tokens, ofTextWith Grammar.standard 0 document = .ok tokens ∧ Kept document tokens ∧
      (tokens.filter isRun).map shown = ["", "\nx ", "\ny", " ", " z"].map String.toList := by
  intro document
  have hsome : (ofTextWith Grammar.standard 0 document).toOption.map (fun tokens =>
      (tokens.filter isRun).map shown) =
        some (["", "\nx ", "\ny", " ", " z"].map String.toList) := by
    decide +kernel
  obtain ⟨tokens, htokens, hshown⟩ := Option.map_eq_some_iff.mp hsome
  have hok := toOption_eq_some_iff.mp htokens
  exact ⟨tokens, hok, kept_of_ofTextWith Grammar.standard 0 document tokens hok, hshown⟩

end Token

end TaggedText
