import TaggedText.Proofs.Chunks
import TaggedText.Proofs.Lines

/-!
# Where directives say they stand

A cursor knows the width of what was passed on its line, and whether that is blank. So the columns
of a directive count from the beginning of its line in the whole document, be it begun in a text run
or inside a directive, and the directive is a block if it is alone on its line. Its line counts the
line feeds of the text runs before it.
-/
namespace TaggedText

open Delimiter

/-- What a directive that takes up the bytes from `start` to `stop` says of its place. -/
structure Directive.Placed (text : Text) (line : UInt64) (start stop : Nat)
    (directive : Directive) : Prop where
  lines_eq : directive.lines = (line, line + 1)
  columns_eq : directive.columns =
    (start - text.lineBegin start, start - text.lineBegin start + (stop - start))
  inline_iff : directive.inline = false ↔
    (∀ c ∈ text.slice (text.lineBegin start) start, Text.isBlank c) ∧
      ∀ c ∈ text.slice stop (text.lineEnd stop), Text.isBlank c
  begins : text.LineBegins (text.lineBegin start) start
  ends : text.LineEnds (text.lineEnd stop) stop

namespace Layout

variable {passed text : Text} {cursor : Cursor} {cut : Cut}

/-- The cursor stands behind `passed`. -/
structure Cursor.Behind (passed : Text) (cursor : Cursor) : Prop where
  offset_eq : cursor.offset = passed.width
  column_eq : cursor.column = passed.lastLine.width
  blank_eq : cursor.blank = passed.lastLine.all Text.isBlank

theorem behind_start (line : UInt64) : Cursor.Behind [] ⟨0, line, 0, true⟩ :=
  ⟨rfl, rfl, rfl⟩

theorem Cursor.Behind.pass (h : cursor.Behind passed) (step : UInt64) (c : Char) :
    (cursor.pass step c).Behind (passed ++ [c]) := by
  have hoffset : (cursor.pass step c).offset = (passed ++ [c]).width := by
    rw [offset_pass, h.offset_eq, Text.width_append, Text.width_singleton]
  have hlast := Text.lastLine_concat passed c
  by_cases hc : c = '\n'
  · rw [if_pos hc] at hlast
    refine ⟨hoffset, ?_, ?_⟩
    · rw [hlast, Cursor.pass, if_pos hc]
      rfl
    · rw [hlast, Cursor.pass, if_pos hc]
      rfl
  · rw [if_neg hc] at hlast
    refine ⟨hoffset, ?_, ?_⟩
    · rw [hlast, Cursor.pass, if_neg hc, Text.width_append, Text.width_singleton, ← h.column_eq]
    · rw [hlast, Cursor.pass, if_neg hc, List.all_append, ← h.blank_eq]
      simp

theorem Cursor.Behind.foldl_pass (h : cursor.Behind passed) (step : UInt64) (text : Text) :
    (text.foldl (Cursor.pass step) cursor).Behind (passed ++ text) := by
  induction text generalizing passed cursor with
  | nil => rwa [List.append_nil]
  | cons c cs ih =>
      have hrest := ih (h.pass step c)
      rwa [List.append_assoc] at hrest

theorem behind_siteAt (h : cursor.Behind passed) (cut : Cut) :
    (siteAt cursor cut).cursor.Behind (passed ++ cut.run) :=
  h.foldl_pass 1 cut.run

theorem behind_after (h : cursor.Behind passed) (cut : Cut) :
    (siteAt cursor cut).after.Behind (passed ++ cut.run ++ (siteAt cursor cut).source) :=
  (behind_siteAt h cut).foldl_pass 0 _

theorem stop_siteAt (h : cursor.Behind passed) (cut : Cut) :
    (siteAt cursor cut).stop = (passed ++ cut.run ++ (siteAt cursor cut).source).width := by
  rw [Site.stop, (behind_siteAt h cut).offset_eq, Text.width_append (passed ++ cut.run)]

theorem block_siteAt (h : cursor.Behind passed) (cut : Cut) :
    (siteAt cursor cut).block = ((passed ++ cut.run).lastLine.all Text.isBlank &&
      (Text.restOfLine cut.rest).all Text.isBlank) := by
  rw [← (behind_siteAt h cut).blank_eq, ← Text.restOfLineBlank_eq]
  rfl

theorem placed_siteAt (h : cursor.Behind passed) (cut : Cut) :
    (siteAt cursor cut).directive.Placed
      (passed ++ cut.run ++ (siteAt cursor cut).source ++ cut.rest)
      (cursor.line + .ofNat cut.run.newlines) (siteAt cursor cut).cursor.offset
      (siteAt cursor cut).stop := by
  have hreached := behind_siteAt h cut
  let behind := (siteAt cursor cut).source ++ cut.rest
  have hcolumn := Text.column_lineBegin (passed ++ cut.run) behind
  have hbefore := Text.slice_lineBegin (passed ++ cut.run) behind
  rw [← List.append_assoc (passed ++ cut.run), ← hreached.offset_eq] at hcolumn hbefore
  have hends := Text.lineEnds_append (passed ++ cut.run ++ (siteAt cursor cut).source) cut.rest
  have hbehind := Text.slice_lineEnd (passed ++ cut.run ++ (siteAt cursor cut).source) cut.rest
  rw [← stop_siteAt h] at hends hbehind
  refine ⟨?_, ?_, ?_, Text.lineBegins _ _, hends⟩
  · rw [← line_siteAt]
    rfl
  · have hwidth : (siteAt cursor cut).stop - (siteAt cursor cut).cursor.offset =
        (siteAt cursor cut).source.width := Nat.add_sub_cancel_left ..
    rw [hcolumn, ← hreached.column_eq, hwidth]
    rfl
  · rw [hbefore, hbehind, Site.directive, Bool.not_eq_false', block_siteAt h, Bool.and_eq_true,
      List.all_eq_true, List.all_eq_true]

/-- The run of the site stands behind `passed` in the text, and the directive behind the run. -/
def Site.StandsBehind (text passed : Text) (site : Site) : Prop :=
  ∃ cursor cut, site = siteAt cursor cut ∧ cursor.Behind passed ∧
    text = passed ++ cut.run ++ site.source ++ cut.rest

theorem closing_suffix_source (passed : Text) (site : Site) : closing <:+ passed ++ site.source :=
  ⟨passed ++ opening ++ site.body, by simp [Site.source]⟩

/-- Every site but the first stands behind a directive. -/
theorem exists_standsBehind {document : Text} (passed text : Text)
    (hdocument : document = passed ++ text) (hb : cursor.Behind passed) {site : Site}
    {before after : List Site}
    (hsplit : (sitesFrom cursor (cuts text).1).1 = before ++ site :: after) :
    ∃ done, site.StandsBehind document done ∧
      (before = [] ∧ done = passed ∨ closing <:+ done) := by
  induction text using cuts.induct generalizing passed cursor before with
  | case1 text hnone =>
      rw [cuts_of_eq_none hnone] at hsplit
      simp [sitesFrom] at hsplit
  | case2 text cut hcut ih =>
      rw [cuts_of_eq_some hcut] at hsplit
      have htext := hdocument.trans (append_of_firstCut? hcut passed cursor)
      cases before with
      | nil =>
          obtain ⟨rfl, -⟩ := List.cons.inj hsplit
          exact ⟨passed, ⟨cursor, cut, rfl, hb, htext⟩, .inl ⟨rfl, rfl⟩⟩
      | cons first before =>
          obtain ⟨rfl, hlater⟩ := List.cons.inj hsplit
          obtain ⟨done, hstands, hdone⟩ := ih _ htext (behind_after hb cut) hlater
          refine ⟨done, hstands, .inr ?_⟩
          rcases hdone with ⟨-, rfl⟩ | hdone
          · exact closing_suffix_source ..
          · exact hdone

theorem tail_isSuffix (text : Text) : (cuts text).2 <:+ text := by
  induction text using cuts.induct with
  | case1 text hnone =>
      rw [cuts_of_eq_none hnone]
  | case2 text cut hcut ih =>
      rw [cuts_of_eq_some hcut]
      exact ih.trans ⟨_, (text_of_firstCut? hcut).symm⟩

theorem stop_tail (firstLine : UInt64) (text : Text) :
    (ofText firstLine text).tailStart + (cuts text).2.width = text.width :=
  (offset_cuts ⟨0, firstLine + 1, 0, true⟩ text).trans (Nat.zero_add _)

theorem slice_tail (firstLine : UInt64) (text : Text) :
    text.slice (ofText firstLine text).tailStart text.width = (cuts text).2 := by
  obtain ⟨done, hdone⟩ := tail_isSuffix text
  have hbegin : (ofText firstLine text).tailStart = Text.width done := by
    have hstop := stop_tail firstLine text
    have hwidth : Text.width done + (cuts text).2.width = text.width := by
      rw [← Text.width_append, hdone]
    omega
  have hslice := Text.slice_append done (cuts text).2 []
  rw [hbegin]
  rwa [List.append_nil, hdone] at hslice

end Layout

namespace Token

variable {document : String} {tokens : List Token} {start stop : Nat}

@[simp] theorem runNewlines_nil (document : String) : runNewlines [] document = 0 := rfl

theorem runNewlines_text {content : String} {run : Text}
    (h : Text.slice document.toList start stop = run) (tokens : List Token) :
    runNewlines (⟨.text content, start, stop⟩ :: tokens) document =
      run.newlines + runNewlines tokens document := by
  subst h
  rfl

theorem runNewlines_directive {directive : Directive} {reading : Except DirectiveError Descriptor} :
    runNewlines (⟨.directive directive reading, start, stop⟩ :: tokens) document =
      runNewlines tokens document := rfl

end Token

namespace Layout

/-- The tokens of the cuts of a text say where they stand. The induction is on the cuts, and the
tokens before a directive are nothing, a run, or the tokens of the first cut and more. -/
theorem placed_of_cuts {grammar : Grammar} {document : String} (passed text : Text)
    (hdocument : document.toList = passed ++ text) (hb : cursor.Behind passed)
    {parts : List (List Token)}
    (h : (sitesFrom cursor (cuts text).1).1.mapM (Site.tokens grammar) = .ok parts) {last : Token}
    (hlast : last.isRun) {before after : List Token} {token : Token} {directive : Directive}
    {reading : Except DirectiveError Descriptor}
    (hsplit : parts.flatten ++ [last] = before ++ token :: after)
    (hlexeme : token.lexeme = .directive directive reading) :
    directive.Placed document.toList (cursor.line + .ofNat (Token.runNewlines before document))
      token.start token.stop := by
  induction text using cuts.induct generalizing passed cursor parts before with
  | case1 text hnone =>
      rw [cuts_of_eq_none hnone] at h
      cases h
      have hmem : token ∈ before ++ token :: after := by simp
      rw [← hsplit] at hmem
      obtain rfl := List.mem_singleton.mp hmem
      simp [Token.isRun, hlexeme] at hlast
  | case2 text cut hcut ih =>
      rw [cuts_of_eq_some hcut] at h
      simp only [sitesFrom, List.mapM_cons] at h
      obtain ⟨tokens, htokens, h⟩ := bind_eq_ok_iff.mp h
      obtain ⟨later, hlater, h⟩ := bind_eq_ok_iff.mp h
      cases h
      obtain ⟨read, rfl⟩ := tokens_site htokens
      have htext := hdocument.trans (append_of_firstCut? hcut passed cursor)
      have hrun := slice_run hb.offset_eq cut
      have hplaced := placed_siteAt hb cut
      rw [← htext] at hrun hplaced
      cases before with
      | nil =>
          cases hsplit
          cases hlexeme
      | cons first before =>
          cases before with
          | nil =>
              cases hsplit
              cases hlexeme
              rw [Token.runNewlines_text hrun, Token.runNewlines_nil, Nat.add_zero]
              exact hplaced
          | cons second before =>
              simp only [List.flatten_cons, List.cons_append, List.nil_append,
                List.cons.injEq] at hsplit
              obtain ⟨rfl, rfl, hsplit⟩ := hsplit
              have hrest := ih _ htext (behind_after hb cut) hlater hsplit
              rw [line_after, line_siteAt, UInt64.add_assoc, ← UInt64.ofNat_add] at hrest
              rw [Token.runNewlines_text hrun, Token.runNewlines_directive]
              exact hrest

end Layout

end TaggedText
