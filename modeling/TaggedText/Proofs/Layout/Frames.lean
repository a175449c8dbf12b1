import TaggedText.Proofs.Sites

/-!
# The layout does not depend on the grammar

A frame is what a token is apart from the grammar's reading: its place, and its text run or its
directive. The frames of a document are the same whatever the grammar, and there is one list of them
even where a grammar gives up before the last.

A grammar ends the reading exactly if it gives up on one of the directives in this list, and the
error names the first of them. A syntax error never ends the reading.
-/
namespace TaggedText

open Layout

/-- A token without what the grammar made of it. -/
structure Frame where
  /-- The content of a text run, or a directive. -/
  shown : String ⊕ Directive
  start : Nat
  stop : Nat

def Token.frame (token : Token) : Frame :=
  { shown :=
      match token.lexeme with
      | .text content => .inl content
      | .directive directive _ => .inr directive
    start := token.start
    stop := token.stop }

namespace Frame

/-- The frame shows a directive that the grammar gives up on, for the given reason. -/
def GivenUp (grammar : Grammar) (cause : String) (frame : Frame) : Prop :=
  ∃ directive, frame.shown = .inr directive ∧ grammar directive.body = .error (.fatal cause)

/-- The error of a grammar that gives up on a frame, and on none before it. -/
def FirstGivenUp (grammar : Grammar) (frames : List Frame) (e : LexError) : Prop :=
  ∃ before frame after directive, frames = before ++ frame :: after ∧
    (∀ earlier ∈ before, ∀ cause, ¬ earlier.GivenUp grammar cause) ∧
    frame.shown = .inr directive ∧ grammar directive.body = .error (.fatal e.cause) ∧
    e.offset = frame.start ∧ e.line = directive.lines.1

end Frame

/-- How a grammar reads a document with the given frames. -/
structure Framed (grammar : Grammar) (firstLine : UInt64) (document : String) (frames : List Frame) :
    Prop where
  frames_eq : ∀ tokens, Token.ofTextWith grammar firstLine document = .ok tokens →
    tokens.map Token.frame = frames
  fails_iff : (∃ e, Token.ofTextWith grammar firstLine document = .error e) ↔
    ∃ frame ∈ frames, ∃ cause, frame.GivenUp grammar cause
  names_first : ∀ e, Token.ofTextWith grammar firstLine document = .error e →
    Frame.FirstGivenUp grammar frames e

namespace Layout

variable {grammar : Grammar} {site : Site} {sites : List Site} {parts : List (List Token)}

namespace Site

/-- The text run before a site. -/
def runFrame (site : Site) : Frame :=
  ⟨.inl (String.ofList site.content), site.cursor.offset - site.run.width, site.cursor.offset⟩

def directiveFrame (site : Site) : Frame :=
  ⟨.inr site.directive, site.cursor.offset, site.stop⟩

def frames (site : Site) : List Frame :=
  [site.runFrame, site.directiveFrame]

end Site

def frames (layout : Layout) : List Frame :=
  layout.sites.flatMap Site.frames ++ [layout.lastToken.frame]

theorem map_frame_site {tokens : List Token} (h : site.tokens grammar = .ok tokens) :
    tokens.map Token.frame = site.frames := by
  obtain ⟨reading, rfl⟩ := tokens_site h
  rfl

theorem map_frame_sites (h : sites.mapM (Site.tokens grammar) = .ok parts) :
    parts.flatten.map Token.frame = sites.flatMap Site.frames := by
  induction sites generalizing parts with
  | nil =>
      cases h
      rfl
  | cons site sites ih =>
      rw [List.mapM_cons] at h
      have ⟨tokens, htokens, h⟩ := bind_eq_ok_iff.mp h
      have ⟨later, hlater, h⟩ := bind_eq_ok_iff.mp h
      cases h
      rw [List.flatten_cons, List.map_append, map_frame_site htokens, ih hlater, List.flatMap_cons]

theorem map_frame_tokens {layout : Layout} {tokens : List Token}
    (h : layout.tokens grammar = .ok tokens) : tokens.map Token.frame = layout.frames := by
  have ⟨parts, hparts, h⟩ := bind_eq_ok_iff.mp h
  cases h
  rw [List.map_append, map_frame_sites hparts]
  rfl

theorem not_givenUp_runFrame (site : Site) (cause : String) :
    ¬ site.runFrame.GivenUp grammar cause := by
  rintro ⟨directive, hshown, _⟩
  cases hshown

theorem givenUp_directiveFrame {cause : String} :
    site.directiveFrame.GivenUp grammar cause ↔ grammar site.body.trim = .error (.fatal cause) := by
  rw [← site.body_directive]
  constructor
  · rintro ⟨directive, hshown, hgrammar⟩
    cases hshown
    exact hgrammar
  · exact fun hgrammar => ⟨site.directive, rfl, hgrammar⟩

/-- A site is given up with the grammar's reason and its own place. -/
theorem tokens_site_eq_error_iff {e : LexError} : site.tokens grammar = .error e ↔
    grammar site.body.trim = .error (.fatal e.cause) ∧ e.offset = site.cursor.offset ∧
      e.line = site.cursor.line := by
  unfold Site.tokens Site.lexeme
  cases hbody : grammar site.body.trim with
  | ok descriptor =>
      constructor
      · intro h
        cases h
      · intro h
        cases h.1
  | error refusal =>
      cases refusal with
      | malformed error =>
          constructor
          · intro h
            cases h
          · intro h
            cases h.1
      | fatal cause =>
          obtain ⟨line, offset, cause'⟩ := e
          constructor
          · intro h
            cases h
            exact ⟨rfl, rfl, rfl⟩
          · rintro ⟨hcause, rfl, rfl⟩
            cases hcause
            rfl

/-- A site that is read is not given up. -/
theorem not_givenUp_of_tokens {tokens : List Token} (h : site.tokens grammar = .ok tokens)
    {frame : Frame} (hframe : frame ∈ site.frames) (cause : String) :
    ¬ frame.GivenUp grammar cause := by
  rcases List.mem_pair.mp hframe with rfl | rfl
  · exact not_givenUp_runFrame site cause
  · rw [givenUp_directiveFrame]
    intro hfatal
    have herror : site.tokens grammar = .error ⟨site.cursor.line, site.cursor.offset, cause⟩ :=
      tokens_site_eq_error_iff.mpr ⟨hfatal, rfl, rfl⟩
    rw [h] at herror
    cases herror

theorem not_givenUp_of_tokens_layout {layout : Layout} {tokens : List Token}
    (h : layout.tokens grammar = .ok tokens) {frame : Frame} (hframe : frame ∈ layout.frames)
    (cause : String) : ¬ frame.GivenUp grammar cause := by
  have ⟨parts, hparts, _⟩ := bind_eq_ok_iff.mp h
  rcases List.mem_append.mp hframe with hframe | hframe
  · obtain ⟨site, hsite, hframe⟩ := List.mem_flatMap.mp hframe
    have ⟨tokens, htokens⟩ := exists_eq_ok_of_mapM_eq_ok hparts hsite
    exact not_givenUp_of_tokens htokens hframe cause
  · obtain rfl := List.mem_singleton.mp hframe
    rintro ⟨directive, hshown, _⟩
    cases hshown

/-- A reading that fails does so at the first site that is given up. -/
theorem firstGivenUp_of_tokens {layout : Layout} {e : LexError}
    (h : layout.tokens grammar = .error e) : Frame.FirstGivenUp grammar layout.frames e := by
  have hsites : layout.sites.mapM (Site.tokens grammar) = .error e := by
    unfold tokens at h
    cases hparts : layout.sites.mapM (Site.tokens grammar) with
    | ok parts =>
        rw [hparts] at h
        cases h
    | error e' =>
        rw [hparts] at h
        cases h
        rfl
  obtain ⟨before, site, after, hsplit, hsite, hbefore⟩ := exists_first_of_mapM_eq_error hsites
  obtain ⟨hfatal, hoffset, hline⟩ := tokens_site_eq_error_iff.mp hsite
  refine ⟨before.flatMap Site.frames ++ [site.runFrame], site.directiveFrame,
    after.flatMap Site.frames ++ [layout.lastToken.frame], site.directive, ?_, ?_, rfl, ?_,
    hoffset, hline⟩
  · simp [frames, hsplit, Site.frames]
  · intro frame hframe cause
    rcases List.mem_append.mp hframe with hframe | hframe
    · obtain ⟨earlier, hearlier, hframe⟩ := List.mem_flatMap.mp hframe
      have ⟨tokens, htokens⟩ := hbefore earlier hearlier
      exact not_givenUp_of_tokens htokens hframe cause
    · rw [List.mem_singleton.mp hframe]
      exact not_givenUp_runFrame site cause
  · rw [site.body_directive]
    exact hfatal

end Layout

/-- The frames of a document are the same for every grammar, and a grammar that gives up does so at
the first frame at which it can. -/
theorem exists_framed (firstLine : UInt64) (document : String) : ∃ frames : List Frame,
    (∃ tokens, Token.ofTextWith Grammar.standard firstLine document = .ok tokens ∧
      tokens.map Token.frame = frames) ∧
    ∀ grammar, Framed grammar firstLine document frames := by
  refine ⟨(ofText firstLine document.toList).frames, ?_, fun grammar => ⟨?_, ?_, ?_⟩⟩
  · have ⟨tokens, htokens⟩ := Layout.exists_tokens Grammar.neverGivesUp_standard
      (ofText firstLine document.toList)
    exact ⟨tokens, htokens, map_frame_tokens htokens⟩
  · exact fun tokens => map_frame_tokens
  · constructor
    · rintro ⟨e, he⟩
      obtain ⟨before, frame, after, directive, hframes, _, hshown, hfatal, _⟩ :=
        firstGivenUp_of_tokens he
      exact ⟨frame, by simp [hframes], e.cause, directive, hshown, hfatal⟩
    · rintro ⟨frame, hframe, cause, hgiven⟩
      cases htokens : Token.ofTextWith grammar firstLine document with
      | ok tokens => exact absurd hgiven (not_givenUp_of_tokens_layout htokens hframe cause)
      | error e => exact ⟨e, rfl⟩
  · exact fun e => firstGivenUp_of_tokens

end TaggedText
