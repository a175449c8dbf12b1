import Mathlib.Data.List.Chain
import TaggedText.Proofs.Fallible
import TaggedText.Proofs.Offsets
import TaggedText.Token

/-!
# Tokens laid along their text

The relation `Tiles` lays a list of tokens along a text: runs of text alternate with directives, each
begins where the one before it ends, a directive is as long as the search for its closing delimiter
says, and that search finds nothing for an opening delimiter inside a run. What is said of all
tokens follows from it by induction.

That the tokens of a text tile it is shown along the cuts of the text, so it holds for every grammar
that does not give up.
-/
namespace TaggedText

open Delimiter

namespace Layout

variable {passed text body rest : Text} {cut : Cut}

/-- The opening delimiters that begin among the first `n` characters are never closed. -/
def Unclosed (text : Text) (n : Nat) : Prop :=
  ∀ before after, text = before ++ opening ++ after → before.length < n → splitBody? after = none

theorem Unclosed.skip_opening {n : Nat} (h : splitBody? text = none) (ht : Unclosed text n) :
    Unclosed (opening ++ text) (n + 2) := by
  intro before after heq hlt
  match before with
  | [] =>
      obtain rfl : text = after := by simpa [opening] using heq
      exact h
  | [c] => simp [opening] at heq
  | _ :: _ :: before =>
      have htext : text = before ++ opening ++ after := by
        simp only [opening, List.cons_append, List.nil_append, List.cons.injEq] at heq
        simpa [opening] using heq.2.2
      exact ht before after htext (by simpa using hlt)

theorem Unclosed.skip_char {n : Nat} {c : Char}
    (h : ∀ after, c :: text ≠ opening ++ after) (ht : Unclosed text n) :
    Unclosed (c :: text) (n + 1) := by
  intro before after heq hlt
  match before with
  | [] => exact absurd heq (h after)
  | _ :: before =>
      have htext : text = before ++ opening ++ after := by
        simp only [List.cons_append, List.cons.injEq] at heq
        exact heq.2
      exact ht before after htext (by simpa using hlt)

theorem unclosed_of_firstCut?_eq_none (h : firstCut? passed text = none) :
    Unclosed text text.length := by
  fun_induction firstCut? passed text with
  | case1 => exact fun before after _ hlt => absurd hlt (Nat.not_lt_zero _)
  | case2 => cases h
  | case3 passed cs hs ih => exact (ih h).skip_opening hs
  | case4 passed c cs hc ih =>
      refine (ih h).skip_char fun after heq => ?_
      simp only [opening, List.cons_append, List.nil_append, List.cons.injEq] at heq
      exact hc after heq.1 heq.2

/-- A cut takes the text apart behind a run that closes no directive. -/
theorem exists_run_of_firstCut? (h : firstCut? passed text = some cut) :
    ∃ run, cut.run = passed.reverse ++ run ∧
      text = run ++ opening ++ (cut.body ++ closing ++ cut.rest) ∧
      splitBody? (cut.body ++ closing ++ cut.rest) = some (cut.body, cut.rest) ∧
      Unclosed text run.length := by
  fun_induction firstCut? passed text with
  | case1 => cases h
  | case2 passed cs body rest hs =>
      cases h
      have hcs : cs = body ++ closing ++ rest := eq_of_splitBody? hs
      exact ⟨[], by simp, by simp [opening, hcs], hcs ▸ hs,
        fun before after _ hlt => absurd hlt (Nat.not_lt_zero _)⟩
  | case3 passed cs hs ih =>
      obtain ⟨run, hrun, htext, hsplit, hunclosed⟩ := ih h
      refine ⟨opening ++ run, ?_, ?_, hsplit, hunclosed.skip_opening hs⟩
      · simp [hrun, opening]
      · rw [htext]
        simp [opening]
  | case4 passed c cs hc ih =>
      obtain ⟨run, hrun, htext, hsplit, hunclosed⟩ := ih h
      refine ⟨c :: run, ?_, ?_, hsplit, hunclosed.skip_char fun after heq => ?_⟩
      · simp [hrun]
      · rw [htext]
        simp
      · simp only [opening, List.cons_append, List.nil_append, List.cons.injEq] at heq
        exact hc after heq.1 heq.2

end Layout

open Layout

/-- The tokens of `rest`, which stands behind `passed`. -/
inductive Tiles : Text → Text → List Token → Prop
  | last {passed rest : Text} {content : String} : Unclosed rest rest.length →
      Tiles passed rest [⟨.text content, passed.width, (passed ++ rest).width⟩]
  | cut {passed run body rest : Text} {content : String} {directive : Directive}
      {reading : Except DirectiveError Descriptor} {tokens : List Token} :
      Unclosed (run ++ opening ++ (body ++ closing ++ rest)) run.length →
      splitBody? (body ++ closing ++ rest) = some (body, rest) →
      directive.source = String.ofList (opening ++ body ++ closing) →
      Tiles (passed ++ run ++ (opening ++ body ++ closing)) rest tokens →
      Tiles passed (run ++ opening ++ (body ++ closing ++ rest))
        (⟨.text content, passed.width, (passed ++ run).width⟩ ::
          ⟨.directive directive reading, (passed ++ run).width,
            (passed ++ run ++ (opening ++ body ++ closing)).width⟩ :: tokens)

namespace Layout

theorem offset_pass (step : UInt64) (cursor : Cursor) (c : Char) :
    (cursor.pass step c).offset = cursor.offset + c.utf8Size := by
  unfold Cursor.pass
  split
  next hc => rw [hc]; rfl
  next => rfl

theorem offset_foldl_pass (step : UInt64) (cursor : Cursor) (text : Text) :
    (text.foldl (Cursor.pass step) cursor).offset = cursor.offset + text.width := by
  induction text generalizing cursor with
  | nil => rfl
  | cons c cs ih =>
      rw [List.foldl_cons, ih, offset_pass, Text.width_cons, Nat.add_assoc]

theorem offset_siteAt (cursor : Cursor) (cut : Cut) :
    (siteAt cursor cut).cursor.offset = cursor.offset + cut.run.width :=
  offset_foldl_pass 1 cursor cut.run

theorem offset_after (site : Site) :
    site.after.offset = site.cursor.offset + site.source.width :=
  offset_foldl_pass 0 site.cursor site.source

variable {grammar : Grammar} {parts : List (List Token)}

/-- The tokens of a site are a text run and a directive that begins where the run ends. -/
theorem tokens_site {site : Site} {tokens : List Token}
    (h : site.tokens grammar = .ok tokens) :
    ∃ reading, tokens =
      [⟨.text (String.ofList site.content), site.cursor.offset - site.run.width,
          site.cursor.offset⟩,
        ⟨.directive site.directive reading, site.cursor.offset, site.stop⟩] := by
  have ⟨lexeme, hlexeme, h⟩ := bind_eq_ok_iff.mp h
  cases h
  unfold Site.lexeme at hlexeme
  split at hlexeme
  · cases hlexeme
    exact ⟨_, rfl⟩
  · cases hlexeme
    exact ⟨_, rfl⟩
  · cases hlexeme

theorem cuts_of_eq_none (h : firstCut? [] text = none) : cuts text = ([], text) := by
  rw [cuts]
  split
  next => rfl
  next cut hcut => rw [h] at hcut; cases hcut

theorem cuts_of_eq_some (h : firstCut? [] text = some cut) :
    cuts text = (cut :: (cuts cut.rest).1, (cuts cut.rest).2) := by
  rw [cuts]
  split
  next hnone => rw [h] at hnone; cases hnone
  next cut' hcut => rw [h] at hcut; cases hcut; rfl

theorem text_of_firstCut? (h : firstCut? [] text = some cut) :
    text = cut.run ++ opening ++ cut.body ++ closing ++ cut.rest := by
  have hcut := eq_of_firstCut? h
  rwa [List.reverse_nil, List.nil_append] at hcut

/-- The tokens of the cuts of a text tile it. -/
theorem tiles_of_cuts (passed text : Text) {cursor : Cursor} (ho : cursor.offset = passed.width)
    (h : (sitesFrom cursor (cuts text).1).1.mapM (Site.tokens grammar) = .ok parts) :
    Tiles passed text (parts.flatten ++
      [⟨.text (String.ofList (cuts text).2), (sitesFrom cursor (cuts text).1).2.offset,
        (sitesFrom cursor (cuts text).1).2.offset + (cuts text).2.width⟩]) := by
  induction text using cuts.induct generalizing passed cursor parts with
  | case1 text hnone =>
      rw [cuts_of_eq_none hnone] at h ⊢
      cases h
      have hlast : Tiles passed text
          [⟨.text (String.ofList text), passed.width, (passed ++ text).width⟩] :=
        .last (unclosed_of_firstCut?_eq_none hnone)
      simpa [sitesFrom, ho] using hlast
  | case2 text cut hcut ih =>
      rw [cuts_of_eq_some hcut] at h ⊢
      simp only [sitesFrom, List.mapM_cons] at h
      have ⟨tokens, htokens, h⟩ := bind_eq_ok_iff.mp h
      have ⟨later, hlater, h⟩ := bind_eq_ok_iff.mp h
      cases h
      obtain ⟨reading, rfl⟩ := tokens_site htokens
      have ⟨run, hrun, htext, hsplit, hunclosed⟩ := exists_run_of_firstCut? hcut
      rw [List.reverse_nil, List.nil_append] at hrun
      have hreached : (siteAt cursor cut).cursor.offset = (passed ++ run).width := by
        rw [offset_siteAt, ho, hrun, Text.width_append]
      have hbegin : (siteAt cursor cut).cursor.offset - (siteAt cursor cut).run.width =
          passed.width := by
        rw [offset_siteAt, ho]
        exact Nat.add_sub_cancel ..
      have hstop : (siteAt cursor cut).stop =
          (passed ++ run ++ (opening ++ cut.body ++ closing)).width := by
        rw [Site.stop, hreached, Text.width_append (passed ++ run)]
        rfl
      have hafter : (siteAt cursor cut).after.offset =
          (passed ++ run ++ (opening ++ cut.body ++ closing)).width :=
        (offset_after _).trans hstop
      have htail := ih _ hafter hlater
      rw [hreached] at hbegin ⊢
      rw [htext] at hunclosed ⊢
      rw [hbegin, hstop]
      exact .cut hunclosed hsplit rfl htail

end Layout

namespace Token

/-- Whether the token is a text run. -/
def isRun (token : Token) : Bool :=
  match token.lexeme with
  | .text _ => true
  | .directive _ _ => false

/-- The characters a token takes up in the text it was read from. -/
def source (token : Token) (text : Text) : Text :=
  text.slice token.start token.stop

/-- The token takes up `source`, and `after` follows: no directive was missed in a text run, and a
directive is as long as the search for its closing delimiter says. -/
def Fits (source after : Text) (token : Token) : Prop :=
  match token.lexeme with
  | .text _ => Unclosed (source ++ after) source.length
  | .directive directive _ =>
      directive.source = String.ofList source ∧
        ∃ body, source = opening ++ body ++ closing ∧
          splitBody? (body ++ closing ++ after) = some (body, after)

end Token

namespace Tiles

variable {passed rest : Text} {tokens : List Token}

theorem odd_length (h : Tiles passed rest tokens) : tokens.length % 2 = 1 := by
  induction h with
  | last => rfl
  | cut _ _ _ _ ih =>
      simp only [List.length_cons]
      omega

theorem isRun_iff (h : Tiles passed rest tokens) {i : Nat} {token : Token}
    (hi : tokens[i]? = some token) : token.isRun ↔ i % 2 = 0 := by
  induction h generalizing i with
  | last =>
      match i with
      | 0 =>
          cases hi
          simp [Token.isRun]
      | i + 1 => cases hi
  | cut _ _ _ _ ih =>
      match i with
      | 0 =>
          cases hi
          simp [Token.isRun]
      | 1 =>
          cases hi
          simp [Token.isRun]
      | i + 2 =>
          rw [Nat.add_mod_right]
          exact ih hi

theorem head_start (h : Tiles passed rest tokens) :
    tokens.head?.map Token.start = some passed.width := by
  cases h with
  | last => rfl
  | cut => rfl

theorem getLast_stop (h : Tiles passed rest tokens) :
    tokens.getLast?.map Token.stop = some (passed ++ rest).width := by
  induction h with
  | last => rfl
  | @cut passed run body rest content directive reading tokens _ _ _ htail ih =>
      match tokens, ih with
      | [], _ => cases htail
      | token :: tokens, ih =>
          rw [List.getLast?_cons_cons, List.getLast?_cons_cons, ih]
          simp

theorem adjacent (h : Tiles passed rest tokens) :
    tokens.IsChain fun a b => a.stop = b.start := by
  induction h with
  | last => exact .singleton _
  | cut _ _ _ htail ih =>
      refine .cons_cons rfl (List.isChain_cons.mpr ⟨fun token htoken => ?_, ih⟩)
      have hstart := htail.head_start
      rw [htoken] at hstart
      exact (Option.some.inj hstart).symm

/-- Each token stands somewhere in the text, and fits there. -/
theorem exists_span (h : Tiles passed rest tokens) {token : Token} (hmem : token ∈ tokens) :
    ∃ before source after, passed ++ rest = before ++ source ++ after ∧
      token.start = before.width ∧ token.stop = (before ++ source).width ∧
      token.Fits source after := by
  induction h with
  | @last passed rest content hunclosed =>
      obtain rfl := List.mem_singleton.mp hmem
      refine ⟨passed, rest, [], by simp, rfl, rfl, ?_⟩
      simpa [Token.Fits] using hunclosed
  | @cut passed run body rest content directive reading tokens hunclosed hsplit hsource _ ih =>
      rcases List.mem_cons.mp hmem with rfl | hmem
      · refine ⟨passed, run, opening ++ (body ++ closing ++ rest), by simp, rfl, rfl, ?_⟩
        simpa [Token.Fits] using hunclosed
      · rcases List.mem_cons.mp hmem with rfl | hmem
        · exact ⟨passed ++ run, opening ++ body ++ closing, rest, by simp, rfl, rfl, hsource, body,
            rfl, hsplit⟩
        · obtain ⟨before, source, after, htext, hspan⟩ := ih hmem
          refine ⟨before, source, after, ?_, hspan⟩
          rw [← htext]
          simp

theorem flatMap_source (h : Tiles passed rest tokens) :
    tokens.flatMap (Token.source · (passed ++ rest)) = rest := by
  induction h with
  | @last passed rest =>
      have hslice := Text.slice_append passed rest []
      rw [List.append_nil] at hslice
      simpa [Token.source] using hslice
  | @cut passed run body rest content directive reading tokens _ _ _ _ ih =>
      have htext : passed ++ (run ++ opening ++ (body ++ closing ++ rest)) =
          passed ++ run ++ (opening ++ body ++ closing) ++ rest := by simp
      have hrun := Text.slice_append passed run (opening ++ body ++ closing ++ rest)
      have hdirective := Text.slice_append (passed ++ run) (opening ++ body ++ closing) rest
      rw [← List.append_assoc (passed ++ run)] at hrun
      rw [htext, List.flatMap_cons, List.flatMap_cons, ih, Token.source, Token.source, hrun,
        hdirective]
      simp

end Tiles

end TaggedText
