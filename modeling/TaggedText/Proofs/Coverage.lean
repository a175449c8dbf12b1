import TaggedText.Proofs.Tiling

/-!
# Tokens cover their document

The tokens of a document take up all of it, and exactly its closed directives are tokens. The
statement is about byte offsets, as they leave the library; the search for a closing delimiter is
the public one.
-/
namespace TaggedText

open Delimiter Layout

variable {document : String} {tokens : List Token} {grammar : Grammar} {firstLine : UInt64}

/-- What the tokens of a document take up of it. -/
structure Token.Cover (document : String) (tokens : List Token) : Prop where
  odd_length : tokens.length % 2 = 1
  isRun_iff : ∀ i token, tokens[i]? = some token → (token.isRun ↔ i % 2 = 0)
  head_start : tokens.head?.map Token.start = some 0
  getLast_stop : tokens.getLast?.map Token.stop = some document.utf8ByteSize
  adjacent : tokens.IsChain fun a b => a.stop = b.start
  boundaries : ∀ token ∈ tokens, token.start ≤ token.stop ∧
    Text.IsBoundary document.toList token.start ∧ Text.IsBoundary document.toList token.stop
  flatMap_source : tokens.flatMap (Token.source · document.toList) = document.toList
  /-- A directive ends where the search says, and keeps the characters it takes up. -/
  directives : ∀ token ∈ tokens, ∀ directive reading,
    token.lexeme = .directive directive reading →
      opening <+: token.source document.toList ∧
      directive.source = String.ofList (token.source document.toList) ∧
      ∃ stop, closingOffset? document.toList (token.start + opening.width) = some stop ∧
        token.stop = stop + closing.width
  /-- An opening delimiter that begins inside a text run is never closed. -/
  runs : ∀ token ∈ tokens, token.isRun → ∀ before after : Text,
    document.toList = before ++ opening ++ after →
      token.start ≤ before.width → before.width < token.stop →
        closingOffset? document.toList (before.width + opening.width) = none

namespace Token

theorem directive_of_fits {before source after : Text} {token : Token} {directive : Directive}
    {reading : Except DirectiveError Descriptor} (h : token.Fits source after)
    (hlexeme : token.lexeme = .directive directive reading) :
    opening <+: source ∧ directive.source = String.ofList source ∧
      ∃ stop, closingOffset? (before ++ source ++ after) (before.width + opening.width) = some stop ∧
        (before ++ source).width = stop + closing.width := by
  rw [Fits, hlexeme] at h
  obtain ⟨hsource, body, rfl, hsplit⟩ := h
  have hclosing : closingOffset? ((before ++ opening) ++ (body ++ closing ++ after))
      (before ++ opening).width = some ((before ++ opening) ++ body).width :=
    closingOffset?_of_split hsplit
  refine ⟨⟨body ++ closing, by simp⟩, hsource, ((before ++ opening) ++ body).width, ?_, ?_⟩
  · simpa using hclosing
  · simp [Nat.add_assoc]

theorem unclosed_of_fits {before source after p q : Text} {token : Token}
    (h : token.Fits source after) (hrun : token.isRun)
    (htext : before ++ source ++ after = p ++ opening ++ q) (hle : before.width ≤ p.width)
    (hlt : p.width < (before ++ source).width) :
    closingOffset? (before ++ source ++ after) (p.width + opening.width) = none := by
  have hunclosed : Unclosed (source ++ after) source.length := by
    unfold Fits at h
    unfold isRun at hrun
    split at h
    next hlexeme => exact h
    next hlexeme => simp [hlexeme] at hrun
  have hsplit : before ++ (source ++ after) = p ++ (opening ++ q) := by
    simpa using htext
  obtain ⟨e, rfl, hrest⟩ := Text.exists_append_of_width_le hsplit hle
  have hshort : e.length < source.length := by
    by_contra hlong
    have hprefix : source <+: e :=
      List.prefix_of_prefix_length_le ⟨after, rfl⟩ ⟨opening ++ q, hrest.symm⟩ (by omega)
    obtain ⟨d, rfl⟩ := hprefix
    simp only [Text.width_append] at hlt
    omega
  have hnone : splitBody? q = none := hunclosed e q (by simpa using hrest) hshort
  rw [htext, ← Text.width_append]
  exact closingOffset?_eq_none hnone

end Token

theorem Tiles.cover (h : Tiles [] document.toList tokens) : Token.Cover document tokens where
  odd_length := h.odd_length
  isRun_iff _ _ := h.isRun_iff
  head_start := h.head_start
  getLast_stop := by
    rw [h.getLast_stop, List.nil_append, Text.width_toList]
  adjacent := h.adjacent
  boundaries token hmem := by
    have ⟨before, source, after, htext, hstart, hstop, _⟩ := h.exists_span hmem
    refine ⟨?_, ⟨before, source ++ after, ?_, hstart⟩, before ++ source, after, htext, hstop⟩
    · rw [hstart, hstop, Text.width_append]
      exact Nat.le_add_right ..
    · simpa using htext
  flatMap_source := h.flatMap_source
  directives token hmem directive reading hlexeme := by
    have ⟨before, source, after, htext, hstart, hstop, hfits⟩ := h.exists_span hmem
    rw [List.nil_append] at htext
    have hsource : token.source document.toList = source := by
      rw [Token.source, hstart, hstop, htext, Text.slice_append]
    rw [hsource, hstart, hstop, htext]
    exact Token.directive_of_fits hfits hlexeme
  runs token hmem hrun p q hp hle hlt := by
    have ⟨before, source, after, htext, hstart, hstop, hfits⟩ := h.exists_span hmem
    rw [List.nil_append] at htext
    rw [hstart] at hle
    rw [hstop] at hlt
    rw [htext] at hp ⊢
    exact Token.unclosed_of_fits hfits hrun hp hle hlt

theorem tiles_of_ofTextWith (h : Token.ofTextWith grammar firstLine document = .ok tokens) :
    Tiles [] document.toList tokens := by
  have ⟨parts, hparts, h⟩ := bind_eq_ok_iff.mp h
  cases h
  have hstart : (⟨0, firstLine + 1, 0, true⟩ : Cursor).offset = Text.width [] := rfl
  exact tiles_of_cuts [] document.toList hstart hparts

/-- A grammar that refuses a body for its syntax only. -/
def Grammar.NeverGivesUp (grammar : Grammar) : Prop :=
  ∀ body cause, grammar body ≠ .error (.fatal cause)

theorem Grammar.neverGivesUp_standard : Grammar.standard.NeverGivesUp := by
  intro body cause
  rw [standard]
  cases read .plain body with
  | ok descriptor => exact nofun
  | error e => exact nofun

theorem exists_tokens_site (h : grammar.NeverGivesUp) (site : Site) :
    ∃ tokens, site.tokens grammar = .ok tokens := by
  unfold Site.tokens Site.lexeme
  cases hbody : grammar site.body.trim with
  | ok descriptor => exact ⟨_, rfl⟩
  | error refusal =>
      cases refusal with
      | malformed e => exact ⟨_, rfl⟩
      | fatal cause => exact absurd hbody (h site.body.trim cause)

/-- A grammar that never gives up reads every layout. -/
theorem Layout.exists_tokens (h : grammar.NeverGivesUp) (layout : Layout) :
    ∃ tokens, layout.tokens grammar = .ok tokens := by
  obtain ⟨parts, hparts⟩ := exists_mapM_eq_ok (exists_tokens_site h) layout.sites
  refine ⟨parts.flatten ++ [layout.lastToken], ?_⟩
  rw [Layout.tokens, hparts]
  rfl

theorem exists_tokens_standard (site : Site) :
    ∃ tokens, site.tokens Grammar.standard = .ok tokens :=
  exists_tokens_site Grammar.neverGivesUp_standard site

/-- Every reading of a document covers it, and the built-in grammar reads every document. -/
theorem cover_of_ofTextWith (firstLine : UInt64) (document : String) :
    (∃ tokens, Token.ofTextWith Grammar.standard firstLine document = .ok tokens) ∧
      ∀ grammar tokens, Token.ofTextWith grammar firstLine document = .ok tokens →
        Token.Cover document tokens := by
  constructor
  · obtain ⟨parts, hparts⟩ :=
      exists_mapM_eq_ok exists_tokens_standard (ofText firstLine document.toList).sites
    refine ⟨parts.flatten ++ [(ofText firstLine document.toList).lastToken], ?_⟩
    rw [Token.ofTextWith, Layout.tokens, hparts]
    rfl
  · intro grammar tokens h
    exact (tiles_of_ofTextWith h).cover

/-- A closing delimiter inside a string does not end the directive, and a stray opening one stays in
the last run. -/
theorem cover_of_ofTextWith_stray :
    ∃ tokens,
      Token.ofTextWith Grammar.standard 0 "é \x7b% x \"%\x7d\" %\x7d\x7b% y" = .ok tokens ∧
      tokens.map (fun token => (token.start, token.stop)) = [(0, 3), (3, 15), (15, 19)] ∧
      Token.Cover "é \x7b% x \"%\x7d\" %\x7d\x7b% y" tokens := by
  have hspans : (Token.ofTextWith Grammar.standard 0
      "é \x7b% x \"%\x7d\" %\x7d\x7b% y").toOption.map
        (List.map fun token => (token.start, token.stop)) = some [(0, 3), (3, 15), (15, 19)] := by
    decide +kernel
  have ⟨tokens, htokens, hspans⟩ := Option.map_eq_some_iff.mp hspans
  have hok := toOption_eq_some_iff.mp htokens
  exact ⟨tokens, hok, hspans, (cover_of_ofTextWith 0 _).2 _ _ hok⟩

end TaggedText
