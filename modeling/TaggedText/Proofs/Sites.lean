import Mathlib.Data.List.DropRight
import TaggedText.Proofs.Coverage

/-!
# Directives and the sites they were read at

A directive among the tokens of a text was read at a site of its layout, and the body of a site is
what the search for the closing delimiter passed. So what a grammar makes of a body, and what is
known of the search, can be said of tokens.
-/
namespace TaggedText

open Delimiter

namespace Layout

variable {text : Text} {cursor : Cursor} {cut : Cut} {site : Site}

theorem exists_splitBody?_of_mem_cuts (h : cut ∈ (cuts text).1) :
    ∃ behind, splitBody? behind = some (cut.body, cut.rest) := by
  induction text using cuts.induct with
  | case1 text hnone =>
      rw [cuts_of_eq_none hnone] at h
      cases h
  | case2 text first hfirst ih =>
      rw [cuts_of_eq_some hfirst] at h
      rcases List.mem_cons.mp h with rfl | h
      · obtain ⟨run, _, _, hsplit, _⟩ := exists_run_of_firstCut? hfirst
        exact ⟨_, hsplit⟩
      · exact ih h

theorem exists_cut_of_mem_sitesFrom {list : List Cut} (h : site ∈ (sitesFrom cursor list).1) :
    ∃ cut ∈ list, site.body = cut.body := by
  induction list generalizing cursor with
  | nil => cases h
  | cons cut list ih =>
      rcases List.mem_cons.mp h with rfl | h
      · exact ⟨cut, List.mem_cons_self, rfl⟩
      · obtain ⟨cut', hcut', hbody⟩ := ih h
        exact ⟨cut', List.mem_cons_of_mem cut hcut', hbody⟩

/-- The body of a site was found by the search for its closing delimiter. -/
theorem exists_splitBody?_of_mem_sites {firstLine : UInt64}
    (h : site ∈ (ofText firstLine text).sites) :
    ∃ behind rest, splitBody? behind = some (site.body, rest) := by
  obtain ⟨cut, hcut, hbody⟩ := exists_cut_of_mem_sitesFrom h
  obtain ⟨behind, hsplit⟩ := exists_splitBody?_of_mem_cuts hcut
  exact ⟨behind, cut.rest, hbody ▸ hsplit⟩

end Layout

/-- What trimming takes off the end are blanks. -/
theorem Text.trim_append_blanks (text : Text) :
    text.trim ++ (text.skipBlanks.reverse.takeWhile Text.isBlank).reverse = text.skipBlanks := by
  rw [Text.trim, ← List.reverse_append, List.takeWhile_append_dropWhile, List.reverse_reverse]

/-- What stands between the delimiters, without the blanks around it. -/
def Directive.body (directive : Directive) : Text :=
  Text.trim ((directive.source.toList.drop Delimiter.opening.length).rdrop Delimiter.closing.length)

theorem Layout.Site.body_directive (site : Site) : site.directive.body = site.body.trim := by
  rw [Directive.body, Site.directive, String.toList_ofList, source, List.append_assoc,
    List.drop_left, List.rdrop_append_length]

/-- The error in a directive. -/
def Lexeme.error? : Lexeme → Option DirectiveError
  | .directive _ (.error e) => some e
  | _ => none

theorem Lexeme.error?_eq_some_iff {lexeme : Lexeme} {e : DirectiveError} :
    lexeme.error? = some e ↔ ∃ directive, lexeme = .directive directive (.error e) := by
  unfold error?
  split
  next directive error => simp
  next hne =>
    constructor
    · intro h
      cases h
    · rintro ⟨directive, rfl⟩
      exact absurd rfl (hne directive e)

/-- A token that is a directive was read at a site, whose bytes it takes up. -/
theorem Token.exists_site_at {grammar : Grammar} {firstLine : UInt64} {document : String}
    {tokens : List Token} {token : Token} {directive : Directive}
    {reading : Except DirectiveError Descriptor}
    (h : Token.ofTextWith grammar firstLine document = .ok tokens) (hmem : token ∈ tokens)
    (hlexeme : token.lexeme = .directive directive reading) :
    ∃ site ∈ (Layout.ofText firstLine document.toList).sites,
      site.lexeme grammar = .ok (.directive directive reading) ∧
        token.start = site.cursor.offset ∧ token.stop = site.stop := by
  obtain ⟨parts, hparts, h⟩ := bind_eq_ok_iff.mp h
  cases h
  rcases List.mem_append.mp hmem with hmem | hmem
  · obtain ⟨part, hpart, hmem⟩ := List.mem_flatten.mp hmem
    obtain ⟨site, hsite, htokens⟩ := exists_mem_of_mapM_eq_ok hparts hpart
    obtain ⟨lexeme, hread, htokens⟩ := bind_eq_ok_iff.mp htokens
    cases htokens
    rcases List.mem_cons.mp hmem with rfl | hmem
    · cases hlexeme
    · obtain rfl := List.mem_singleton.mp hmem
      exact ⟨site, hsite, hlexeme ▸ hread, rfl, rfl⟩
  · obtain rfl := List.mem_singleton.mp hmem
    cases hlexeme

theorem Token.exists_site {grammar : Grammar} {firstLine : UInt64} {document : String}
    {tokens : List Token} {token : Token} {directive : Directive}
    {reading : Except DirectiveError Descriptor}
    (h : Token.ofTextWith grammar firstLine document = .ok tokens) (hmem : token ∈ tokens)
    (hlexeme : token.lexeme = .directive directive reading) :
    ∃ site ∈ (Layout.ofText firstLine document.toList).sites,
      site.lexeme grammar = .ok (.directive directive reading) := by
  obtain ⟨site, hsite, hread, -⟩ := Token.exists_site_at h hmem hlexeme
  exact ⟨site, hsite, hread⟩

end TaggedText
