import TaggedText.Proofs.Grammar.Pointing
import TaggedText.Proofs.Grammar.Quotation
import TaggedText.Proofs.Layout.Checked
import TaggedText.Proofs.Layout.Placement

/-!
# Where errors say they stand

A grammar counts bytes from the first character of a body. In the document these are counted on from
where the body begins, as far as the closing delimiter, and become a line and a character: the line
is that of the directive and the line feeds passed inside it, the character counts from the line of
the whole document that the byte stands on. The errors of the built-in grammar never reach past the
body, so they keep their places, and their order too unless the number of a line wraps around. In a
checked reading none does.
-/
namespace TaggedText

open Delimiter Layout

/-- The place of an offset, where the line around `start` has the number `line`. Lines are counted
on in words. -/
structure Place.IsAt (text : Text) (line : UInt64) (start offset : Nat) (place : Place) : Prop where
  line_eq : place.line = line + .ofNat (text.slice start offset).newlines
  character_eq : place.character = offset - text.lineBegin offset
  begins : text.LineBegins (text.lineBegin offset) offset

/-- Places are in the order of their lines, and on one line in that of their characters. -/
instance : LE Place :=
  ⟨fun a b => a.line < b.line ∨ a.line = b.line ∧ a.character ≤ b.character⟩

/-- Places keep the order of the offsets that they are of, if the line of the last has a number. -/
theorem Place.IsAt.le {before after : Text} {line : UInt64} {m n : Nat} {p q : Place}
    (hp : p.IsAt (before ++ after) line before.width m)
    (hq : q.IsAt (before ++ after) line before.width n) (hm : before.width ≤ m) (hmn : m ≤ n)
    (hfits : line.toNat + ((before ++ after).slice before.width n).newlines < UInt64.size) :
    p ≤ q := by
  have ⟨between, hbetween⟩ := Text.takeBytes_prefix_of_le hmn (before ++ after)
  have hslice : (before ++ after).slice before.width n =
      (before ++ after).slice before.width m ++ between := by
    rw [← Text.append_slice hm, ← Text.append_slice (Nat.le_trans hm hmn), List.append_assoc]
      at hbetween
    exact (List.append_cancel_left hbetween).symm
  have hcount := Text.newlines_append ((before ++ after).slice before.width m) between
  rw [← hslice] at hcount
  by_cases h : '\n' ∈ between
  · left
    have hpositive : 0 < Text.newlines between := List.count_pos_iff.mpr h
    rw [UInt64.lt_iff_toNat_lt, hp.line_eq, hq.line_eq, toNat_add_ofNat hfits,
      toNat_add_ofNat (by omega)]
    omega
  · right
    have hnone : Text.newlines between = 0 := List.count_eq_zero.mpr h
    have hbegin : (before ++ after).lineBegin n = (before ++ after).lineBegin m := by
      rw [Text.lineBegin, ← hbetween, Text.untilLine_append_of_notMem _ h, Text.lineBegin]
    rw [hp.line_eq, hq.line_eq, hp.character_eq, hq.character_eq, hbegin, hcount, hnone,
      Nat.add_zero]
    exact ⟨rfl, Nat.sub_le_sub_right hmn _⟩

namespace Layout.Site

variable {text passed : Text} {site : Site} {bytes : Nat}

theorem width_source (site : Site) :
    site.source.width = opening.width + site.body.width + closing.width := by
  rw [source, Text.width_append, Text.width_append]

theorem stop_sub_closing (site : Site) :
    site.stop - closing.width = site.cursor.offset + site.bodyStop := by
  rw [stop, width_source, ← Nat.add_assoc, Nat.add_sub_cancel]
  rfl

/-- The bytes from the opening delimiter on are those of the directive. -/
theorem slice_source (h : site.StandsBehind text passed) (hbytes : bytes ≤ site.source.width) :
    text.takeBytes (site.cursor.offset + bytes) =
        passed ++ site.run ++ site.source.takeBytes bytes ∧
      text.slice site.cursor.offset (site.cursor.offset + bytes) = site.source.takeBytes bytes := by
  obtain ⟨cursor, cut, rfl, hbehind, htext⟩ := h
  have hreached := (behind_siteAt hbehind cut).offset_eq
  have htake : text.takeBytes ((siteAt cursor cut).cursor.offset + bytes) =
      passed ++ cut.run ++ (siteAt cursor cut).source.takeBytes bytes := by
    rw [htext, List.append_assoc _ _ cut.rest, hreached, Text.takeBytes_width_add,
      Text.takeBytes_append_of_le hbytes]
  have hcut := Text.append_slice (Nat.le_add_right (passed ++ cut.run).width bytes)
    ((siteAt cursor cut).source ++ cut.rest)
  rw [← List.append_assoc, ← htext, ← hreached, htake] at hcut
  exact ⟨htake, List.append_cancel_left hcut⟩

/-- What a directive says of a byte of it is the place of that byte in the document. -/
theorem isAt_place (h : site.StandsBehind text passed) (hbytes : bytes ≤ site.source.width) :
    (site.place bytes).IsAt text site.cursor.line site.cursor.offset
      (site.cursor.offset + bytes) := by
  obtain ⟨htake, hslice⟩ := slice_source h hbytes
  obtain ⟨cursor, cut, rfl, hbehind, -⟩ := h
  have hreached := behind_siteAt hbehind cut
  have hrun : (siteAt cursor cut).run = cut.run := rfl
  rw [hrun] at htake
  generalize hinside : (siteAt cursor cut).source.takeBytes bytes = inside at htake hslice
  refine ⟨?_, ?_, Text.lineBegins _ _⟩
  · rw [hslice, place, hinside]
  · rw [Text.lineBegin, htake, place, hinside]
    by_cases hnewline : '\n' ∈ inside
    · have hsome : Text.newlines inside ≠ 0 := fun hzero => List.count_eq_zero.mp hzero hnewline
      have hlast := Text.width_untilLine_add_lastLine inside
      rw [Text.untilLine_append_of_mem _ hnewline, Text.width_append, ← hreached.offset_eq]
      simp only [if_neg hsome]
      omega
    · have hnone : Text.newlines inside = 0 := List.count_eq_zero.mpr hnewline
      have hlast := Text.width_untilLine_add_lastLine (passed ++ cut.run)
      rw [← hreached.offset_eq, ← hreached.column_eq] at hlast
      rw [Text.untilLine_append_of_notMem _ hnewline]
      simp only [if_pos hnone]
      omega

theorem reach_le_width (site : Site) (offset : Nat) : site.reach offset ≤ site.source.width := by
  rw [width_source, reach, bodyStop]
  omega

end Layout.Site

theorem Text.width_blanks (text : Text) :
    Text.width (text.takeWhile Text.isBlank) = text.width - text.skipBlanks.width := by
  have happend := Text.width_append (text.takeWhile Text.isBlank) text.skipBlanks
  rw [Text.skipBlanks, List.takeWhile_append_dropWhile] at happend
  rw [Text.skipBlanks, happend, Nat.add_sub_cancel]

/-- Bytes from the opening delimiter to the first character of the body that is not blank. -/
def Directive.bodyOffset (directive : Directive) : Nat :=
  opening.width + Text.width (((directive.source.toList.drop opening.length).rdrop
    closing.length).takeWhile Text.isBlank)

namespace Layout.Site

variable {text passed : Text} {site : Site}

theorem bodyOffset_directive (site : Site) : site.directive.bodyOffset = site.bodyStart := by
  rw [Directive.bodyOffset, directive, String.toList_ofList, source, List.append_assoc,
    List.drop_left, List.rdrop_append_length, bodyStart, Text.width_blanks]

/-- The source of a site is its body without blanks, and what stands around it. -/
theorem exists_around_body (site : Site) : ∃ before after,
    site.source = before ++ site.body.trim ++ after ∧ Text.width before = site.bodyStart ∧
      closing <:+ after := by
  have hsplit := Text.trim_append_blanks site.body
  generalize (site.body.skipBlanks.reverse.takeWhile Text.isBlank).reverse = last at hsplit
  have hbody : site.body = site.body.takeWhile Text.isBlank ++ (site.body.trim ++ last) := by
    rw [hsplit, Text.skipBlanks, List.takeWhile_append_dropWhile]
  refine ⟨opening ++ site.body.takeWhile Text.isBlank, last ++ closing, ?_, ?_, ?_⟩
  · calc site.source
        = opening ++ (site.body.takeWhile Text.isBlank ++ (site.body.trim ++ last)) ++ closing := by
          rw [← hbody, source]
      _ = _ := by simp
  · rw [Text.width_append, Text.width_blanks, bodyStart]
  · exact List.suffix_append last closing

theorem slice_body (h : site.StandsBehind text passed) :
    text.slice (site.cursor.offset + site.bodyStart)
        (site.cursor.offset + site.bodyStart + site.body.trim.width) = site.body.trim ∧
      site.bodyStart + site.body.trim.width ≤ site.bodyStop := by
  obtain ⟨before, after, hsource, hwidth, last, hlast⟩ := site.exists_around_body
  constructor
  · obtain ⟨cursor, cut, rfl, hbehind, htext⟩ := h
    have hreached := (behind_siteAt hbehind cut).offset_eq
    have hslice := Text.slice_append (passed ++ cut.run ++ before)
      (siteAt cursor cut).body.trim (after ++ cut.rest)
    have hjoin : passed ++ cut.run ++ before ++ (siteAt cursor cut).body.trim ++
        (after ++ cut.rest) = text := by
      rw [htext, hsource]
      simp
    rwa [hjoin, Text.width_append _ (siteAt cursor cut).body.trim,
      Text.width_append _ before, ← hreached, hwidth] at hslice
  · have htotal := site.width_source
    rw [hsource, ← hlast, Text.width_append, Text.width_append, Text.width_append, hwidth] at htotal
    rw [bodyStop]
    omega

end Layout.Site

/-- The error of a directive is `e`, whose offsets are those in the document under `offset`. -/
structure DirectiveError.StandsFor (text : Text) (token : Token) (directive : Directive)
    (offset : Nat → Nat) (e : SyntaxError) (error : DirectiveError) : Prop where
  message_eq : error.message = e.kind.message
  start_isAt : error.location.start.IsAt text directive.lines.1 token.start (offset e.start)
  stop_isAt : error.location.stop.IsAt text directive.lines.1 token.start (offset e.stop)

/-- The lines of that error are natural numbers, counted on from the line of the directive. -/
structure DirectiveError.CountsFor (text : Text) (token : Token) (directive : Directive)
    (offset : Nat → Nat) (e : SyntaxError) (error : DirectiveError) : Prop where
  start_eq : error.location.start.line.toNat =
    directive.lines.1.toNat + (text.slice token.start (offset e.start)).newlines
  stop_eq : error.location.stop.line.toNat =
    directive.lines.1.toNat + (text.slice token.start (offset e.stop)).newlines

/-- Where the body of a directive begins in the document. -/
def Token.bodyBegin (token : Token) (directive : Directive) : Nat :=
  token.start + directive.bodyOffset

/-- A byte of the body in the document, or the closing delimiter if the body is shorter. -/
def Token.clamp (token : Token) (directive : Directive) (offset : Nat) : Nat :=
  min (token.bodyBegin directive + offset) (token.stop - closing.width)

namespace Token

variable {grammar : Grammar} {firstLine : UInt64} {document : String} {tokens : List Token}
  {token : Token} {directive : Directive} {error : DirectiveError} {text passed : Text}
  {site : Site} {e : SyntaxError}

theorem bodyBegin_directive (hstart : token.start = site.cursor.offset) :
    token.bodyBegin site.directive = site.cursor.offset + site.bodyStart := by
  rw [bodyBegin, hstart, Layout.Site.bodyOffset_directive]

theorem clamp_directive (hstart : token.start = site.cursor.offset) (hstop : token.stop = site.stop)
    (offset : Nat) :
    token.clamp site.directive offset = site.cursor.offset + site.reach offset := by
  rw [clamp, bodyBegin_directive hstart, hstop, site.stop_sub_closing, Layout.Site.reach]
  omega

/-- An error in a body is placed in the document as far as the closing delimiter. -/
theorem standsFor_errorAt (h : site.StandsBehind text passed)
    (hstart : token.start = site.cursor.offset) (hstop : token.stop = site.stop)
    (e : SyntaxError) :
    (site.errorAt e).StandsFor text token site.directive (token.clamp site.directive) e := by
  have hplace : ∀ offset, (site.place (site.reach offset)).IsAt text site.cursor.line token.start
      (token.clamp site.directive offset) := by
    intro offset
    rw [clamp_directive hstart hstop, hstart]
    exact Layout.Site.isAt_place h (site.reach_le_width offset)
  exact ⟨rfl, hplace e.start, hplace e.stop⟩

/-- Where the lines of a directive and of its error have numbers, these are counted exactly. -/
theorem countsFor_errorAt (h : site.StandsBehind text passed)
    (hstart : token.start = site.cursor.offset) (hstop : token.stop = site.stop)
    (hbody : grammar site.body.trim = .error (.malformed e)) (hfits : site.LinesFit grammar) :
    (site.errorAt e).CountsFor text token site.directive (token.clamp site.directive) e := by
  have hline : ∀ offset ∈ [e.start, e.stop], (site.place (site.reach offset)).line.toNat =
      site.cursor.line.toNat +
        (text.slice token.start (token.clamp site.directive offset)).newlines := by
    intro offset hin
    have hslice := (Layout.Site.slice_source h (site.reach_le_width offset)).2
    rw [clamp_directive hstart hstop, hstart, hslice]
    exact toNat_add_ofNat (hfits.error e hbody offset hin)
  exact ⟨hline e.start (by simp), hline e.stop (by simp)⟩

theorem exists_error (h : ofTextWith grammar firstLine document = .ok tokens)
    (hmem : token ∈ tokens) (hlexeme : token.lexeme = .directive directive (.error error)) :
    ∃ e, grammar directive.body = .error (.malformed e) ∧
      error.StandsFor document.toList token directive (token.clamp directive) e ∧
      (ofTextChecked grammar firstLine document = .ok tokens →
        error.CountsFor document.toList token directive (token.clamp directive) e) ∧
      Text.slice document.toList (token.bodyBegin directive)
        (token.bodyBegin directive + directive.body.width) = directive.body ∧
      token.bodyBegin directive + directive.body.width ≤ token.stop - closing.width := by
  obtain ⟨site, hsite, hread, hstart, hstop⟩ := exists_site_at h hmem hlexeme
  obtain ⟨before, after, hsites⟩ := List.append_of_mem hsite
  obtain ⟨passed, hstands, -⟩ := exists_standsBehind [] document.toList
    (List.nil_append _).symm (behind_start (firstLine + 1)) hsites
  unfold Layout.Site.lexeme at hread
  split at hread
  next => cases hread
  next e hbody =>
    cases hread
    have ⟨hslice, hinside⟩ := Layout.Site.slice_body hstands
    rw [Layout.Site.body_directive, bodyBegin_directive hstart]
    refine ⟨e, hbody, standsFor_errorAt hstands hstart hstop e, fun hchecked => ?_, hslice, ?_⟩
    · have hfits := (fits_of_ofTextChecked hchecked).2.2 site hsite
      exact countsFor_errorAt hstands hstart hstop hbody hfits
    · rw [hstop, site.stop_sub_closing]
      omega
  next => cases hread

/-- An error inside the body is placed without clamping. -/
structure Unclamped (token : Token) (directive : Directive) (e : SyntaxError) : Prop where
  start_le : token.bodyBegin directive + e.start ≤ token.stop - closing.width
  stop_le : token.bodyBegin directive + e.stop ≤ token.stop - closing.width

theorem unclamped_of_pointsInto (hpoints : e.PointsInto directive.body)
    (hinside : token.bodyBegin directive + directive.body.width ≤ token.stop - closing.width) :
    token.Unclamped directive e := by
  have hstop : token.bodyBegin directive + e.stop ≤ token.stop - closing.width :=
    Nat.le_trans (Nat.add_le_add_left hpoints.stop_le _) hinside
  exact ⟨Nat.le_trans (Nat.add_le_add_left hpoints.start_le _) hstop, hstop⟩

theorem Unclamped.clamp_eq (h : token.Unclamped directive e) :
    token.clamp directive e.start = token.bodyBegin directive + e.start ∧
      token.clamp directive e.stop = token.bodyBegin directive + e.stop :=
  ⟨Nat.min_eq_left h.start_le, Nat.min_eq_left h.stop_le⟩

theorem Unclamped.standsFor (h : token.Unclamped directive e)
    (hstands : error.StandsFor text token directive (token.clamp directive) e) :
    error.StandsFor text token directive (token.bodyBegin directive + ·) e := by
  obtain ⟨hstart, hstop⟩ := h.clamp_eq
  exact ⟨hstands.message_eq, hstart ▸ hstands.start_isAt, hstop ▸ hstands.stop_isAt⟩

theorem Unclamped.countsFor (h : token.Unclamped directive e)
    (hcounts : error.CountsFor text token directive (token.clamp directive) e) :
    error.CountsFor text token directive (token.bodyBegin directive + ·) e := by
  obtain ⟨hstart, hstop⟩ := h.clamp_eq
  exact ⟨hstart ▸ hcounts.start_eq, hstop ▸ hcounts.stop_eq⟩

/-- An error ends no earlier than it begins, unless the number of the line where it ends wraps
around. -/
theorem start_le_stop (hle : e.start ≤ e.stop)
    (hstands : error.StandsFor text token directive (token.bodyBegin directive + ·) e)
    (hboundary : text.IsBoundary token.start)
    (hfits : directive.lines.1.toNat +
      (text.slice token.start (token.bodyBegin directive + e.stop)).newlines < UInt64.size) :
    error.location.start ≤ error.location.stop := by
  obtain ⟨before, after, rfl, hwidth⟩ := hboundary
  have hstartAt := hstands.start_isAt
  have hstopAt := hstands.stop_isAt
  rw [hwidth] at hstartAt hstopAt hfits
  refine hstartAt.le hstopAt ?_ (Nat.add_le_add_left hle _) hfits
  rw [← hwidth, bodyBegin, Nat.add_assoc]
  exact Nat.le_add_right ..

/-- Errors point at what they are about, in the body and in the document: those of the built-in
grammar always, those of another grammar as far as they stay before the closing delimiter. Lines
are counted in words; in a checked reading, which gives the same tokens or stops, they are the
natural numbers. An error of the built-in grammar ends no earlier than it begins, unless the number
of its last line wraps around, and none does in a checked reading. -/
theorem errors_exact :
    (∀ (make : Grammar.Constructors) (body : Text) (e : SyntaxError),
      Grammar.read make body = .error e → e.PointsInto body) ∧
    (∀ (firstLine : UInt64) (document : String) (tokens : List Token),
      ofTextWith Grammar.standard firstLine document = .ok tokens →
      Rechecked Grammar.standard firstLine document tokens ∧
      ∀ token ∈ tokens, ∀ directive error, token.lexeme = .directive directive (.error error) →
        ∃ e, Grammar.standard directive.body = .error (.malformed e) ∧
          token.bodyBegin directive + e.start ≤ token.stop - closing.width ∧
          token.bodyBegin directive + e.stop ≤ token.stop - closing.width ∧
          error.StandsFor document.toList token directive (token.bodyBegin directive + ·) e ∧
          (directive.lines.1.toNat + (Text.slice document.toList token.start
              (token.bodyBegin directive + e.stop)).newlines < UInt64.size →
            error.location.start ≤ error.location.stop) ∧
          (ofTextChecked Grammar.standard firstLine document = .ok tokens →
            error.CountsFor document.toList token directive (token.bodyBegin directive + ·) e ∧
              error.location.start ≤ error.location.stop)) ∧
    ∀ (grammar : Grammar) (firstLine : UInt64) (document : String) (tokens : List Token),
      ofTextWith grammar firstLine document = .ok tokens →
      Rechecked grammar firstLine document tokens ∧
      ∀ token ∈ tokens, ∀ directive error, token.lexeme = .directive directive (.error error) →
        Text.slice document.toList (token.bodyBegin directive)
          (token.bodyBegin directive + directive.body.width) = directive.body ∧
        ∃ e, grammar directive.body = .error (.malformed e) ∧
          error.StandsFor document.toList token directive (token.clamp directive) e ∧
          (ofTextChecked grammar firstLine document = .ok tokens →
            error.CountsFor document.toList token directive (token.clamp directive) e) := by
  refine ⟨fun make body e => Grammar.pointsInto_of_read, ?_, ?_⟩
  · intro firstLine document tokens h
    refine ⟨rechecked h, fun token hmem directive error hlexeme => ?_⟩
    obtain ⟨e, hbody, hstands, hcounts, -, hinside⟩ := exists_error h hmem hlexeme
    have hpoints := Grammar.pointsInto_of_read (Grammar.read_of_standard hbody)
    have hboundary := ((tiles_of_ofTextWith h).cover.boundaries token hmem).2.1
    have hunclamped := unclamped_of_pointsInto hpoints hinside
    have hplaced := hunclamped.standsFor hstands
    refine ⟨e, hbody, hunclamped.start_le, hunclamped.stop_le, hplaced,
      start_le_stop hpoints.start_le hplaced hboundary, fun hchecked => ?_⟩
    have hcounted := hunclamped.countsFor (hcounts hchecked)
    refine ⟨hcounted, start_le_stop hpoints.start_le hplaced hboundary ?_⟩
    rw [← hcounted.stop_eq]
    exact UInt64.toNat_lt_size _
  · intro grammar firstLine document tokens h
    refine ⟨rechecked h, fun token hmem directive error hlexeme => ?_⟩
    obtain ⟨e, hbody, hstands, hcounts, hslice, -⟩ := exists_error h hmem hlexeme
    exact ⟨hslice, e, hbody, hstands, hcounts⟩

theorem exists_of_locations {location : Location}
    (h : (ofTextWith grammar firstLine document).toOption.map (fun tokens =>
      tokens.filterMap fun token => token.lexeme.error?.map DirectiveError.location) =
        some [location]) :
    ∃ tokens, ofTextWith grammar firstLine document = .ok tokens ∧ ∃ token ∈ tokens,
      ∃ directive error, token.lexeme = .directive directive (.error error) ∧
        error.location = location := by
  obtain ⟨tokens, htokens, hlocations⟩ := Option.map_eq_some_iff.mp h
  have hmem : location ∈ [location] := List.mem_singleton_self location
  rw [← hlocations] at hmem
  obtain ⟨token, htoken, hlocation⟩ := List.mem_filterMap.mp hmem
  obtain ⟨error, herror, hlocation⟩ := Option.map_eq_some_iff.mp hlocation
  obtain ⟨directive, hlexeme⟩ := Lexeme.error?_eq_some_iff.mp herror
  have hok := toOption_eq_some_iff.mp htokens
  exact ⟨tokens, hok, token, htoken, directive, error, hlexeme, hlocation⟩

/-- The error comes behind a line feed of the directive, and a grammar that counts too far is held
at the closing delimiter. If the directive stands on the last line that has a number in a word, that
grammar's error ends on a line that is counted as zero, and a checked reading stops. -/
theorem errors_exact_wrapped :
    let document := "é\n x\x7b% a\n b=[1 é %\x7d"
    let far : Grammar := fun _ => .error (.malformed ⟨.emptyTag, 1, 100⟩)
    (∃ e, Grammar.read .plain "a b=[1 é".toList = .error e ∧ e.PointsInto "a b=[1 é".toList) ∧
      (∃ tokens, ofTextWith Grammar.standard 3 document = .ok tokens ∧ ∃ token ∈ tokens,
        ∃ directive error, token.lexeme = .directive directive (.error error) ∧
          error.location = ⟨⟨6, 6⟩, ⟨6, 8⟩⟩ ∧
          ∃ e, error.StandsFor document.toList token directive (token.bodyBegin directive + ·) e ∧
            error.CountsFor document.toList token directive (token.bodyBegin directive + ·) e ∧
            error.location.start ≤ error.location.stop) ∧
      (∃ tokens, ofTextWith far 3 document = .ok tokens ∧ ∃ token ∈ tokens,
        ∃ directive error, token.lexeme = .directive directive (.error error) ∧
          error.location = ⟨⟨5, 6⟩, ⟨6, 9⟩⟩ ∧
          ∃ e, error.StandsFor document.toList token directive (token.clamp directive) e ∧
            error.CountsFor document.toList token directive (token.clamp directive) e) ∧
      ∃ tokens, ofTextWith far (.ofNat (2 ^ 64 - 3)) document = .ok tokens ∧
        ofTextChecked far (.ofNat (2 ^ 64 - 3)) document = .error .overflow ∧ ∃ token ∈ tokens,
          ∃ directive error, token.lexeme = .directive directive (.error error) ∧
            error.location = ⟨⟨.ofNat (2 ^ 64 - 1), 6⟩, ⟨0, 9⟩⟩ ∧
            ∃ e, error.StandsFor document.toList token directive (token.clamp directive) e := by
  intro document far
  have hread : Grammar.read .plain "a b=[1 é".toList = .error ⟨.expected ']' (some 'é'), 7, 9⟩ := by
    rfl
  have hfits : (3 : UInt64).toNat + Text.newlines document.toList + 2 < UInt64.size := by
    decide +kernel
  have hstandard : (ofTextWith Grammar.standard 3 document).toOption.map (fun tokens =>
      tokens.filterMap fun token => token.lexeme.error?.map DirectiveError.location) =
        some [⟨⟨6, 6⟩, ⟨6, 8⟩⟩] := by
    decide +kernel
  have hfar : (ofTextWith far 3 document).toOption.map (fun tokens =>
      tokens.filterMap fun token => token.lexeme.error?.map DirectiveError.location) =
        some [⟨⟨5, 6⟩, ⟨6, 9⟩⟩] := by
    decide +kernel
  have hlast : (ofTextWith far (.ofNat (2 ^ 64 - 3)) document).toOption.map (fun tokens =>
      tokens.filterMap fun token => token.lexeme.error?.map DirectiveError.location) =
        some [⟨⟨.ofNat (2 ^ 64 - 1), 6⟩, ⟨0, 9⟩⟩] := by
    decide +kernel
  have hhalt : (ofTextChecked far (.ofNat (2 ^ 64 - 3)) document).toOption.map List.length =
      none := by
    decide +kernel
  refine ⟨⟨_, hread, errors_exact.1 .plain _ _ hread⟩, ?_, ?_, ?_⟩
  · obtain ⟨tokens, hok, token, hmem, directive, error, hlexeme, hlocation⟩ :=
      exists_of_locations hstandard
    obtain ⟨hrechecked, herrors⟩ := errors_exact.2.1 3 document tokens hok
    obtain ⟨e, -, -, -, hstands, -, hchecked⟩ := herrors token hmem directive error hlexeme
    exact ⟨tokens, hok, token, hmem, directive, error, hlexeme, hlocation, e, hstands,
      hchecked (hrechecked.fits hfits)⟩
  · obtain ⟨tokens, hok, token, hmem, directive, error, hlexeme, hlocation⟩ :=
      exists_of_locations hfar
    obtain ⟨hrechecked, herrors⟩ := errors_exact.2.2 far 3 document tokens hok
    obtain ⟨-, e, -, hstands, hchecked⟩ := herrors token hmem directive error hlexeme
    exact ⟨tokens, hok, token, hmem, directive, error, hlexeme, hlocation, e, hstands,
      hchecked (hrechecked.fits hfits)⟩
  · obtain ⟨tokens, hok, token, hmem, directive, error, hlexeme, hlocation⟩ :=
      exists_of_locations hlast
    obtain ⟨hrechecked, herrors⟩ := errors_exact.2.2 far _ document tokens hok
    obtain ⟨-, e, -, hstands, -⟩ := herrors token hmem directive error hlexeme
    have hoverflow := hrechecked.same_or.resolve_left fun h => by
      rw [h] at hhalt
      cases hhalt
    exact ⟨tokens, hok, hoverflow, token, hmem, directive, error, hlexeme, hlocation, e, hstands⟩

end Token

end TaggedText
