import TaggedText.Proofs.Coverage
import TaggedText.Proofs.Layout.Chunks

/-!
# Reading a document chunk by chunk

A document may be read in two chunks, if the first ends with a line feed and leaves no opening
delimiter in its text runs. The directives are the same as in the whole document, once those of the
second chunk are counted on by the bytes of the first, and its lines by the line feeds in the text
runs of the first. If the grammar gives up, it does so at the same directive.
-/
namespace TaggedText

open Delimiter Layout

variable {grammar : Grammar} {firstLine : UInt64} {tokens : List Token}

namespace Token

/-- The tokens that are directives. -/
def directives (tokens : List Token) : List Token :=
  tokens.filter fun token => !token.isRun

/-- The same token further on in the document. -/
def shift (d : Nat) (token : Token) : Token :=
  { token with start := token.start + d, stop := token.stop + d }

/-- The line feeds in the text runs. -/
def runNewlines (tokens : List Token) (document : String) : Nat :=
  ((tokens.filter Token.isRun).map fun token => (token.source document.toList).newlines).sum

end Token

/-- The same error further on in the document. -/
def LexError.shift (d : Nat) (e : LexError) : LexError :=
  { e with offset := e.offset + d }

namespace Layout

/-- The token of a directive alone. -/
def Site.directiveToken (grammar : Grammar) (site : Site) : Except LexError Token :=
  (site.lexeme grammar).map fun lexeme => ⟨lexeme, site.cursor.offset, site.stop⟩

theorem directiveToken_shift (grammar : Grammar) (d : Nat) (site : Site) :
    (site.shift d).directiveToken grammar =
      ((site.directiveToken grammar).map (Token.shift d)).mapError (LexError.shift d) := by
  have hstop : (site.shift d).stop = site.stop + d := by
    simp only [Site.stop, Site.shift, Cursor.shift, Site.source]
    omega
  unfold Site.directiveToken Site.lexeme
  rw [hstop]
  cases hbody : grammar site.body.trim with
  | ok descriptor => simp [Site.shift, hbody]; rfl
  | error refusal =>
      cases refusal with
      | malformed e => simp [Site.shift, hbody]; rfl
      | fatal cause => simp [Site.shift, hbody]; rfl

theorem exists_reading {site : Site} {lexeme : Lexeme} (h : site.lexeme grammar = .ok lexeme) :
    ∃ reading, lexeme = .directive site.directive reading := by
  unfold Site.lexeme at h
  split at h
  · cases h
    exact ⟨_, rfl⟩
  · cases h
    exact ⟨_, rfl⟩
  · cases h

/-- The directives among the tokens of sites are the tokens of their directives. -/
theorem map_directives_mapM (grammar : Grammar) (sites : List Site) :
    (sites.mapM (Site.tokens grammar)).map (fun parts => Token.directives parts.flatten) =
      sites.mapM (Site.directiveToken grammar) := by
  induction sites with
  | nil => rfl
  | cons site sites ih =>
      rw [List.mapM_cons, List.mapM_cons, ← ih, Site.tokens, Site.directiveToken]
      cases hlexeme : site.lexeme grammar with
      | error e => rfl
      | ok lexeme =>
          obtain ⟨reading, rfl⟩ := exists_reading hlexeme
          cases sites.mapM (Site.tokens grammar) with
          | error e => rfl
          | ok parts => rfl

theorem map_directives (grammar : Grammar) (firstLine : UInt64) (document : String) :
    (Token.ofTextWith grammar firstLine document).map Token.directives =
      (ofText firstLine document.toList).sites.mapM (Site.directiveToken grammar) := by
  rw [← map_directives_mapM, Token.ofTextWith, Layout.tokens]
  cases (ofText firstLine document.toList).sites.mapM (Site.tokens grammar) with
  | error e => rfl
  | ok parts =>
      have hlast : Token.directives
          (parts.flatten ++ [(ofText firstLine document.toList).lastToken]) =
            Token.directives parts.flatten := by
        rw [Token.directives, List.filter_append]
        exact List.append_nil _
      exact congrArg Except.ok hlast

/-- A text that begins with a cut. -/
theorem append_of_firstCut? {text : Text} {cut : Cut} (h : firstCut? [] text = some cut)
    (passed : Text) (cursor : Cursor) :
    passed ++ text = passed ++ cut.run ++ (siteAt cursor cut).source ++ cut.rest := by
  rw [text_of_firstCut? h]
  simp [Site.source, siteAt]

theorem offset_after_siteAt {passed : Text} {cursor : Cursor} (ho : cursor.offset = passed.width)
    (cut : Cut) : (siteAt cursor cut).after.offset =
      (passed ++ cut.run ++ (siteAt cursor cut).source).width := by
  rw [offset_after, offset_siteAt, ho, Text.width_append, Text.width_append]

theorem slice_run {passed : Text} {cursor : Cursor} (ho : cursor.offset = passed.width)
    (cut : Cut) : (passed ++ cut.run ++ (siteAt cursor cut).source ++ cut.rest).slice
      ((siteAt cursor cut).cursor.offset - (siteAt cursor cut).run.width)
      (siteAt cursor cut).cursor.offset = cut.run := by
  have hself : (siteAt cursor cut).run = cut.run := rfl
  have hbegin : (passed ++ cut.run).width - cut.run.width = passed.width := by
    rw [Text.width_append]
    exact Nat.add_sub_cancel ..
  rw [hself, offset_siteAt, ho, ← Text.width_append, hbegin, List.append_assoc, Text.slice_append]

/-- The text runs take up the runs of the cuts. -/
theorem map_source_runs (passed text : Text) {cursor : Cursor} {parts : List (List Token)}
    (ho : cursor.offset = passed.width)
    (h : (sitesFrom cursor (cuts text).1).1.mapM (Site.tokens grammar) = .ok parts) :
    ((parts.flatten ++ [(⟨.text (String.ofList (cuts text).2),
      (sitesFrom cursor (cuts text).1).2.offset,
      (sitesFrom cursor (cuts text).1).2.offset + (cuts text).2.width⟩ : Token)]).filter
        Token.isRun).map (Token.source · (passed ++ text)) =
          (cuts text).1.map Cut.run ++ [(cuts text).2] := by
  induction text using cuts.induct generalizing passed cursor parts with
  | case1 text hnone =>
      rw [cuts_of_eq_none hnone] at h ⊢
      cases h
      have hslice := Text.slice_append passed text []
      rw [Text.width_append, ← ho, List.append_nil] at hslice
      exact congrArg (fun source => [source]) hslice
  | case2 text cut hcut ih =>
      rw [cuts_of_eq_some hcut] at h ⊢
      simp only [sitesFrom, List.mapM_cons] at h
      obtain ⟨tokens, htokens, h⟩ := bind_eq_ok_iff.mp h
      obtain ⟨later, hlater, h⟩ := bind_eq_ok_iff.mp h
      cases h
      obtain ⟨reading, rfl⟩ := tokens_site htokens
      have hrest := ih _ (offset_after_siteAt ho cut) hlater
      have hslice := slice_run ho cut
      rw [← append_of_firstCut? hcut passed cursor] at hrest hslice
      rw [List.map_cons, List.cons_append, ← hrest]
      exact congrArg₂ List.cons hslice rfl

end Layout

/-- The text runs of a document are the runs of its cuts and what stands behind the last. -/
theorem Token.map_source_runs {document : String}
    (h : ofTextWith grammar firstLine document = .ok tokens) :
    (tokens.filter isRun).map (Token.source · document.toList) =
      (cuts document.toList).1.map Cut.run ++ [(cuts document.toList).2] := by
  obtain ⟨parts, hparts, h⟩ := bind_eq_ok_iff.mp h
  cases h
  exact Layout.map_source_runs [] document.toList rfl hparts

theorem Token.runNewlines_eq {document : String}
    (h : ofTextWith grammar firstLine document = .ok tokens) :
    runNewlines tokens document = Layout.runNewlines (cuts document.toList) := by
  have hruns := congrArg (fun sources => (sources.map Text.newlines).sum) (map_source_runs h)
  simp only [List.map_map, List.map_append, List.sum_append, List.map_cons, List.map_nil,
    List.sum_cons, List.sum_nil, Nat.add_zero] at hruns
  exact hruns

/-- Text runs without an opening delimiter are cuts without one. -/
theorem Token.clear_cuts {document : String}
    (h : ofTextWith grammar firstLine document = .ok tokens)
    (hruns : ∀ token ∈ tokens, token.isRun → ¬ opening <:+: token.source document.toList) :
    (∀ cut ∈ (cuts document.toList).1, Clear cut.run) ∧ Clear (cuts document.toList).2 := by
  have hclear : ∀ run ∈ (tokens.filter isRun).map (Token.source · document.toList), Clear run := by
    intro run hin
    obtain ⟨token, htoken, heq⟩ := List.mem_map.mp hin
    obtain ⟨hmem, hrun⟩ := List.mem_filter.mp htoken
    exact heq ▸ hruns token hmem hrun
  rw [map_source_runs h, List.forall_mem_append, List.forall_mem_map] at hclear
  exact ⟨hclear.1, hclear.2 _ List.mem_cons_self⟩

/-- The directives of a document are those of a first chunk and then those of the rest. A grammar
that gives up in the rest gives up there in the whole document. -/
theorem map_directives_append (grammar : Grammar) (firstLine : UInt64) (first rest : String)
    (tokens : List Token) (hchunk : first = "" ∨ first.toList.getLast? = some '\n')
    (hfirst : Token.ofTextWith grammar firstLine first = .ok tokens)
    (hruns : ∀ token ∈ tokens, token.isRun → ¬ opening <:+: token.source first.toList) :
    (Token.ofTextWith grammar firstLine (first ++ rest)).map Token.directives =
      ((Token.ofTextWith grammar (firstLine + .ofNat (Token.runNewlines tokens first)) rest).map
        fun others => Token.directives tokens ++
          (Token.directives others).map (Token.shift first.utf8ByteSize)).mapError
            (LexError.shift first.utf8ByteSize) := by
  obtain ⟨hclear, htail⟩ := Token.clear_cuts hfirst hruns
  have hchunk : IsChunk first.toList := hchunk.imp_left fun h => by rw [h]; rfl
  have hsites := sites_append firstLine hchunk hclear htail rest.toList
  rw [← String.toList_append, Text.width_toList, ← Token.runNewlines_eq hfirst] at hsites
  have hbare : ∀ sites : List Site, (sites.map Site.bare).mapM (Site.directiveToken grammar) =
      sites.mapM (Site.directiveToken grammar) := fun sites => List.mapM_map
  have hread : (ofText firstLine first.toList).sites.mapM (Site.directiveToken grammar) =
      .ok (Token.directives tokens) := by
    rw [← map_directives, hfirst]
    rfl
  have hothers := map_directives grammar (firstLine + .ofNat (Token.runNewlines tokens first)) rest
  rw [map_directives, ← hbare, hsites, List.mapM_append, hbare, hbare, hread,
    mapM_map_eq (directiveToken_shift grammar first.utf8ByteSize), ← hothers]
  cases Token.ofTextWith grammar (firstLine + .ofNat (Token.runNewlines tokens first)) rest with
  | error e => rfl
  | ok others => rfl

/-- The first chunk has a line feed inside its directive, which does not count. -/
theorem map_directives_append_error :
    let first := "é \x7b% x\n%\x7d\n"
    let rest := " \x7b% y a= %\x7d b"
    ∃ tokens, Token.ofTextWith Grammar.standard 2 first = .ok tokens ∧
      (∀ token ∈ tokens, token.isRun → ¬ opening <:+: token.source first.toList) ∧
      Token.runNewlines tokens first = 1 ∧
      (Token.ofTextWith Grammar.standard 2 (first ++ rest)).map Token.directives =
        ((Token.ofTextWith Grammar.standard (2 + .ofNat (Token.runNewlines tokens first)) rest).map
          fun others => Token.directives tokens ++
            (Token.directives others).map (Token.shift first.utf8ByteSize)).mapError
              (LexError.shift first.utf8ByteSize) := by
  intro first rest
  have hsome : (Token.ofTextWith Grammar.standard 2 first).toOption.map (fun tokens =>
      (tokens.all fun token => !token.isRun || !decide (opening <:+: token.source first.toList),
        Token.runNewlines tokens first)) = some (true, 1) := by
    decide +kernel
  obtain ⟨tokens, htokens, hvalues⟩ := Option.map_eq_some_iff.mp hsome
  obtain ⟨hall, hlines⟩ := Prod.mk.inj hvalues
  have hok := toOption_eq_some_iff.mp htokens
  have hruns : ∀ token ∈ tokens, token.isRun → ¬ opening <:+: token.source first.toList := by
    intro token hmem hrun
    simpa [hrun] using List.all_eq_true.mp hall token hmem
  have hchunk : first = "" ∨ first.toList.getLast? = some '\n' := .inr (by decide)
  exact ⟨tokens, hok, hruns, hlines,
    map_directives_append Grammar.standard 2 first rest tokens hchunk hok hruns⟩

end TaggedText
