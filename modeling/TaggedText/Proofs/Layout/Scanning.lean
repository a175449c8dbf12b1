import TaggedText.Proofs.Layout.Checked
import TaggedText.Proofs.Layout.Frames
import TaggedText.Proofs.Layout.Placement

/-!
# Scanning a document by offsets

A document can also be scanned with nothing but offsets: that of the text run, that of the line, and
the end of line that was looked for last. The beginning of the line moves at line feeds and behind
directives that have some. The end that was found last is taken again as long as it is not passed,
so a line with many directives is searched once.

The scan gives the frames of the layout. Its offsets are those of the lines around it, and the end
that it remembers is one that was looked for at an offset not further on, so where it is taken again
a new search would find it too.
-/
namespace TaggedText

open Delimiter Layout

/-- What a scan over offsets remembers. -/
structure Scan where
  line : UInt64
  /-- Where the text run begins. -/
  start : Nat
  /-- Where the line begins. -/
  lineBegin : Nat
  /-- The end of line that was looked for last. -/
  lineEnd? : Option Nat

/-- A text run and the directive behind it, with the end of line that was looked for there. -/
structure Sighting where
  run : Frame
  directive : Frame
  lineEnd : Nat

namespace Scan

/-- The end of the line around an offset. -/
def lineEnd (scan : Scan) (text : Text) (offset : Nat) : Nat :=
  match scan.lineEnd? with
  | some stop => if offset ≤ stop then stop else text.lineEnd offset
  | none => text.lineEnd offset

/-- Past a line feed. -/
def passNewline (scan : Scan) (offset : Nat) : Scan :=
  { scan with line := scan.line + 1, lineBegin := offset + 1 }

/-- The directive at an offset. -/
def sight (scan : Scan) (text : Text) (offset : Nat) (source : Text) : Sighting :=
  let stop := offset + source.width
  let lineEnd := scan.lineEnd text stop
  let block := (text.slice scan.lineBegin offset).all Text.isBlank &&
    (text.slice stop lineEnd).all Text.isBlank
  let runStop := if block then max (scan.lineBegin - 1) scan.start else offset
  let column := offset - scan.lineBegin
  { run := ⟨.inl (String.ofList (text.slice scan.start runStop)), scan.start, offset⟩
    directive := ⟨.inr
      { source := String.ofList source
        lines := (scan.line, scan.line + 1)
        columns := (column, column + source.width)
        inline := !block }, offset, stop⟩
    lineEnd := lineEnd }

/-- Past the directive at an offset. -/
def passDirective (scan : Scan) (text : Text) (offset : Nat) (source : Text) : Scan where
  line := scan.line
  start := offset + source.width
  lineBegin := if '\n' ∈ source then offset + source.untilLine.width else scan.lineBegin
  lineEnd? := some (scan.lineEnd text (offset + source.width))

/-- A body between its delimiters. -/
def enclose (body : Text) : Text :=
  opening ++ body ++ closing

/-- What is met first, and what is met later. -/
def meet (sighting : Sighting) (later : List Sighting × Scan) : List Sighting × Scan :=
  (sighting :: later.1, later.2)

/-- What is met in the rest of a text from an offset on, and what is remembered at its end. -/
def run (text : Text) (scan : Scan) (offset : Nat) : Text → List Sighting × Scan
  | [] => ([], scan)
  | '\n' :: cs => run text (scan.passNewline offset) (offset + 1) cs
  | '{' :: '%' :: cs =>
      match _h : splitBody? cs with
      | none => run text scan (offset + opening.width) cs
      | some (body, rest) =>
          meet (scan.sight text offset (enclose body))
            (run text (scan.passDirective text offset (enclose body))
              (offset + (enclose body).width) rest)
  | c :: cs => run text scan (offset + c.utf8Size) cs
termination_by cs => cs.length
decreasing_by
  all_goals simp only [List.length_cons]
  all_goals first
    | omega
    | exact Nat.lt_trans (length_lt_of_splitBody? _h) (by omega)

/-- What is met in a text that follows `firstLine` other lines. -/
def ofText (firstLine : UInt64) (text : Text) : List Sighting × Scan :=
  run text ⟨firstLine + 1, 0, 0, none⟩ 0 text

def frames (firstLine : UInt64) (text : Text) : List Frame :=
  let r := ofText firstLine text
  r.1.flatMap (fun sighting => [sighting.run, sighting.directive]) ++
    [⟨.inl (String.ofList (text.slice r.2.start text.width)), r.2.start, text.width⟩]

end Scan

/-- What a scan is to meet at a site, the end of line being looked for anew. -/
def Layout.Site.sighting (text : Text) (site : Site) : Sighting :=
  ⟨site.runFrame, site.directiveFrame, text.lineEnd site.stop⟩

namespace Layout

theorem behindRun_append (a b : Text) (list : List Cut × Text) :
    behindRun a (behindRun b list) = behindRun (a ++ b) list := by
  match list with
  | ([], tail) => simp [behindRun]
  | (cut :: list, tail) => simp [behindRun]

theorem behindRun_nil (list : List Cut × Text) : behindRun [] list = list := by
  match list with
  | ([], tail) => rfl
  | (cut :: list, tail) => rfl

theorem cuts_cons {c : Char} {cs : Text} (h : ∀ after, c = '{' → cs = '%' :: after → False) :
    cuts (c :: cs) = behindRun [c] (cuts cs) := by
  refine cuts_behind_run [c] ?_
  have hpassed : firstCut? [c] cs =
      (firstCut? [] cs).map fun cut => { cut with run := [c] ++ cut.run } :=
    firstCut?_passed [] [c] cs
  rw [← hpassed, List.singleton_append, firstCut?]
  exact h

theorem cuts_opening_of_eq_none {cs : Text} (h : splitBody? cs = none) :
    cuts ('{' :: '%' :: cs) = behindRun opening (cuts cs) := by
  refine cuts_behind_run opening ?_
  have hpassed := firstCut?_passed [] opening.reverse cs
  rw [List.reverse_reverse] at hpassed
  rw [← hpassed]
  change firstCut? [] ('{' :: '%' :: cs) = _
  rw [firstCut?, h]
  rfl

theorem cuts_opening_of_eq_some {cs body rest : Text} (h : splitBody? cs = some (body, rest)) :
    cuts ('{' :: '%' :: cs) = (⟨[], body, rest⟩ :: (cuts rest).1, (cuts rest).2) := by
  have hfirst : firstCut? [] ('{' :: '%' :: cs) = some ⟨[], body, rest⟩ := by
    rw [firstCut?, h]
    rfl
  exact cuts_of_eq_some hfirst

end Layout

namespace Scan

variable {text done passed run rest body : Text} {cursor : Cursor} {scan : Scan} {offset : Nat}

/-- The end of line that is remembered was looked for no further on than `offset`. -/
def Remembers (text : Text) (offset : Nat) (scan : Scan) : Prop :=
  ∀ stop ∈ scan.lineEnd?, ∃ a b, text = a ++ b ∧ a.width ≤ offset ∧ stop = text.lineEnd a.width

theorem Remembers.mono {offset' : Nat} (h : scan.Remembers text offset) (hle : offset ≤ offset') :
    scan.Remembers text offset' := by
  intro stop hstop
  obtain ⟨a, b, htext, ha, heq⟩ := h stop hstop
  exact ⟨a, b, htext, Nat.le_trans ha hle, heq⟩

/-- Whether it is remembered or looked for anew, the same end of line is found. -/
theorem lineEnd_eq (h : scan.Remembers (passed ++ rest) passed.width) :
    scan.lineEnd (passed ++ rest) passed.width = Text.lineEnd (passed ++ rest) passed.width := by
  unfold lineEnd
  split
  next stop hstop =>
    split
    next hle =>
      obtain ⟨a, b, htext, ha, rfl⟩ := h stop hstop
      obtain ⟨line, rfl, rfl⟩ := Text.exists_append_of_width_le htext.symm ha
      exact (Text.lineEnd_eq_of_le hle).symm
    next => rfl
  next => rfl

theorem remembers_passDirective (source : Text)
    (h : scan.Remembers (passed ++ source ++ rest) passed.width) :
    (scan.passDirective (passed ++ source ++ rest) passed.width source).Remembers
      (passed ++ source ++ rest) (passed ++ source).width := by
  intro stop hstop
  refine ⟨passed ++ source, rest, rfl, Nat.le_refl _, ?_⟩
  rw [← lineEnd_eq (h.mono (Text.width_le_append ..)), Text.width_append]
  exact (Option.mem_some.mp hstop).symm

/-- The scan has passed `done`, which ends with a directive or is empty, and then `run`. -/
structure Follows (text done run : Text) (cursor : Cursor) (scan : Scan) : Prop where
  line_eq : scan.line = cursor.line + .ofNat run.newlines
  start_eq : scan.start = done.width
  lineBegin_eq : scan.lineBegin = (done ++ run).untilLine.width
  remembers : scan.Remembers text (done ++ run).width

theorem Follows.passNewline (h : scan.Follows text done run cursor) :
    (scan.passNewline (done ++ run).width).Follows text done (run ++ ['\n']) cursor where
  line_eq := by
    have hcount : Text.newlines (run ++ ['\n']) = Text.newlines run + 1 :=
      Text.newlines_append run ['\n']
    rw [hcount, Scan.passNewline, h.line_eq, UInt64.ofNat_add, UInt64.add_assoc]
    rfl
  start_eq := h.start_eq
  lineBegin_eq := by
    rw [← List.append_assoc, Text.untilLine_concat, if_pos rfl, Text.width_append _ ['\n']]
    rfl
  remembers := by
    rw [← List.append_assoc]
    exact Remembers.mono h.remembers (Text.width_le_append ..)

theorem Follows.passOther {other : Text} (h : scan.Follows text done run cursor)
    (hother : '\n' ∉ other) : scan.Follows text done (run ++ other) cursor where
  line_eq := by
    have hnone : Text.newlines other = 0 := List.count_eq_zero_of_not_mem hother
    have hcount : Text.newlines (run ++ other) = Text.newlines run := by
      rw [Text.newlines_append, hnone, Nat.add_zero]
    rw [hcount, h.line_eq]
  start_eq := h.start_eq
  lineBegin_eq := by
    rw [← List.append_assoc, Text.untilLine_append_of_notMem _ hother, h.lineBegin_eq]
  remembers := by
    rw [← List.append_assoc]
    exact h.remembers.mono (Text.width_le_append ..)

theorem sight_eq (hb : cursor.Behind done) (cut : Cut)
    (htext : text = done ++ cut.run ++ (siteAt cursor cut).source ++ cut.rest)
    (hf : scan.Follows text done cut.run cursor) :
    scan.sight text (done ++ cut.run).width (siteAt cursor cut).source =
      (siteAt cursor cut).sighting text := by
  have hoffset : (siteAt cursor cut).cursor.offset = (done ++ cut.run).width :=
    (behind_siteAt hb cut).offset_eq
  have hstop : (siteAt cursor cut).stop = (done ++ cut.run).width +
      (siteAt cursor cut).source.width := by
    rw [stop_siteAt hb, Text.width_append]
  have hend : scan.lineEnd text (siteAt cursor cut).stop =
      text.lineEnd (siteAt cursor cut).stop := by
    rw [stop_siteAt hb, htext]
    exact lineEnd_eq (htext ▸ hf.remembers.mono (Text.width_le_append ..))
  have hbegin : scan.lineBegin = text.lineBegin (done ++ cut.run).width := by
    rw [hf.lineBegin_eq, htext, List.append_assoc _ _ cut.rest, Text.lineBegin_append]
  have hbefore : text.slice scan.lineBegin (done ++ cut.run).width =
      (done ++ cut.run).lastLine := by
    rw [hbegin, htext, List.append_assoc _ _ cut.rest, Text.slice_lineBegin]
  have hbehind : text.slice (siteAt cursor cut).stop (text.lineEnd (siteAt cursor cut).stop) =
      Text.restOfLine cut.rest := by
    rw [stop_siteAt hb, htext, Text.slice_lineEnd]
  have hcolumn : (done ++ cut.run).width - scan.lineBegin = (siteAt cursor cut).cursor.column := by
    rw [hbegin, htext, List.append_assoc _ _ cut.rest, Text.column_lineBegin,
      (behind_siteAt hb cut).column_eq]
  have hline : scan.line = (siteAt cursor cut).cursor.line :=
    hf.line_eq.trans (line_siteAt cursor cut).symm
  have hstart : scan.start = (siteAt cursor cut).cursor.offset - (siteAt cursor cut).run.width := by
    rw [hf.start_eq, hoffset, Text.width_append]
    exact (Nat.add_sub_cancel ..).symm
  have hcontent : text.slice scan.start (if (siteAt cursor cut).block then
      max (scan.lineBegin - 1) scan.start else (done ++ cut.run).width) =
        (siteAt cursor cut).content := by
    unfold Site.content
    split
    · rw [hf.start_eq, hf.lineBegin_eq, htext, List.append_assoc _ _ cut.rest,
        Text.slice_beforeLastLine]
      rfl
    · rw [hf.start_eq, htext, List.append_assoc _ _ cut.rest, Text.slice_append]
      rfl
  simp only [sight, ← hstop, hend, hbefore, hbehind, ← block_siteAt hb cut, hcontent, hcolumn,
    hline]
  rw [hstart, ← hoffset]
  rfl

theorem Follows.passDirective (cut : Cut)
    (htext : text = done ++ cut.run ++ (siteAt cursor cut).source ++ cut.rest)
    (hf : scan.Follows text done cut.run cursor) :
    (scan.passDirective text (done ++ cut.run).width (siteAt cursor cut).source).Follows text
      (done ++ cut.run ++ (siteAt cursor cut).source) [] (siteAt cursor cut).after where
  line_eq := by
    rw [line_after, line_siteAt, ← hf.line_eq]
    exact (UInt64.add_zero _).symm
  start_eq := (Text.width_append ..).symm
  lineBegin_eq := by
    rw [List.append_nil]
    unfold Scan.passDirective
    dsimp only
    split
    next h => rw [Text.untilLine_append_of_mem _ h, Text.width_append (done ++ cut.run)]
    next h => rw [Text.untilLine_append_of_notMem _ h, hf.lineBegin_eq]
  remembers := by
    rw [List.append_nil, htext]
    exact remembers_passDirective _ (htext ▸ hf.remembers)

/-- The scan meets the sites of the cuts, and ends where the last text run begins. -/
theorem run_eq (hoffset : offset = (done ++ run).width) (htext : text = done ++ run ++ rest)
    (hb : cursor.Behind done) (hf : scan.Follows text done run cursor) :
    (Scan.run text scan offset rest).1 =
        (sitesFrom cursor (behindRun run (cuts rest)).1).1.map (Site.sighting text) ∧
      (Scan.run text scan offset rest).2.start =
        (sitesFrom cursor (behindRun run (cuts rest)).1).2.offset := by
  fun_induction Scan.run text scan offset rest generalizing done run cursor with
  | case1 scan offset =>
      rw [cuts_of_eq_none rfl]
      exact ⟨rfl, hf.start_eq.trans hb.offset_eq.symm⟩
  | case2 scan offset cs ih =>
      have hnext := hf.passNewline
      rw [← hoffset] at hnext
      have hreached : offset + 1 = (done ++ (run ++ ['\n'])).width := by
        rw [hoffset, ← List.append_assoc, Text.width_append _ ['\n']]
        rfl
      have hopening : ∀ after, '\n' = '{' → cs = '%' :: after → False := fun _ h =>
        absurd h (by decide)
      rw [cuts_cons hopening, behindRun_append]
      exact ih hreached (by simpa using htext) hb hnext
  | case3 scan offset cs hsplit ih =>
      have hnext : scan.Follows text done (run ++ opening) cursor := hf.passOther (by decide)
      have hreached : offset + opening.width = (done ++ (run ++ opening)).width := by
        rw [hoffset, ← List.append_assoc, Text.width_append _ opening]
      rw [cuts_opening_of_eq_none hsplit, behindRun_append]
      exact ih hreached (by simpa [opening] using htext) hb hnext
  | case4 scan offset cs body rest hsplit ih =>
      let cut : Cut := ⟨run, body, rest⟩
      have hsite : text = done ++ run ++ (siteAt cursor cut).source ++ rest := by
        rw [htext, eq_of_splitBody? hsplit]
        simp [Site.source, siteAt, cut, opening]
      have hsight : scan.sight text offset (enclose body) = (siteAt cursor cut).sighting text := by
        rw [hoffset]
        exact sight_eq hb cut hsite hf
      have hnext := hf.passDirective cut hsite
      have hreached : offset + (enclose body).width =
          (done ++ run ++ (siteAt cursor cut).source ++ []).width := by
        rw [hoffset, List.append_nil, Text.width_append (done ++ run)]
        rfl
      obtain ⟨hlater, hstart⟩ := ih hreached (by rw [List.append_nil]; exact hsite)
        (behind_after hb cut) (hoffset ▸ hnext)
      have hcut : behindRun run (cuts ('{' :: '%' :: cs)) =
          (cut :: (cuts rest).1, (cuts rest).2) := by
        rw [cuts_opening_of_eq_some hsplit]
        simp [behindRun, cut]
      rw [behindRun_nil] at hlater hstart
      rw [hcut]
      exact ⟨congrArg₂ List.cons hsight hlater, hstart⟩
  | case5 scan offset c cs hnewline hopening ih =>
      have hother : '\n' ∉ [c] := fun hin => hnewline (List.mem_singleton.mp hin).symm
      have hreached : offset + c.utf8Size = (done ++ (run ++ [c])).width := by
        rw [hoffset, ← List.append_assoc, Text.width_append _ [c], Text.width_singleton]
      rw [cuts_cons hopening, behindRun_append]
      exact ih hreached (by simpa using htext) hb (hf.passOther hother)

theorem follows_start (text : Text) (firstLine : UInt64) :
    Follows text [] [] ⟨0, firstLine + 1, 0, true⟩ ⟨firstLine + 1, 0, 0, none⟩ :=
  ⟨(UInt64.add_zero _).symm, rfl, rfl, nofun⟩

theorem ofText_eq (firstLine : UInt64) (text : Text) :
    (ofText firstLine text).1 = (Layout.ofText firstLine text).sites.map (Site.sighting text) ∧
      (ofText firstLine text).2.start = (Layout.ofText firstLine text).tailStart := by
  have hoffset : 0 = Text.width ([] ++ []) := rfl
  have hrun := run_eq hoffset (rfl : text = [] ++ [] ++ text) (behind_start (firstLine + 1))
    (follows_start text firstLine)
  rwa [behindRun_nil] at hrun

/-- The scan gives the frames of the layout. -/
theorem frames_eq (firstLine : UInt64) (text : Text) :
    frames firstLine text = (Layout.ofText firstLine text).frames := by
  obtain ⟨hsightings, hstart⟩ := ofText_eq firstLine text
  rw [frames, hsightings, hstart, slice_tail, Layout.frames, List.flatMap_map,
    ← stop_tail firstLine text]
  rfl

end Scan

/-- The directives among the tokens of a document say where they stand, and a scan that remembers
the end of line it looked for last meets the same tokens and finds the same ends as one that looks
each time. The lines are counted in words. In a checked reading, which gives the same tokens or
stops, they are the natural numbers. -/
structure Token.Located (grammar : Grammar) (firstLine : UInt64) (document : String)
    (tokens : List Token) : Prop where
  placed : ∀ before token after directive reading, tokens = before ++ token :: after →
    token.lexeme = .directive directive reading →
      directive.Placed document.toList (firstLine + 1 + .ofNat (Token.runNewlines before document))
        token.start token.stop
  rechecked : Token.Rechecked grammar firstLine document tokens
  counted : Token.ofTextChecked grammar firstLine document = .ok tokens →
    ∀ before token after directive reading, tokens = before ++ token :: after →
      token.lexeme = .directive directive reading →
        directive.lines.1.toNat = firstLine.toNat + 1 + Token.runNewlines before document ∧
          directive.lines.2.toNat = directive.lines.1.toNat + 1
  frames_scan : tokens.map Token.frame = Scan.frames firstLine document.toList
  lineEnd_scan : ∀ sighting ∈ (Scan.ofText firstLine document.toList).1,
    sighting.lineEnd = Text.lineEnd document.toList sighting.directive.stop

namespace Token

variable {grammar : Grammar} {firstLine : UInt64} {document : String}
  {tokens before after : List Token} {token : Token} {directive : Directive}
  {reading : Except DirectiveError Descriptor}

theorem placed_of_ofTextWith (h : ofTextWith grammar firstLine document = .ok tokens)
    (hsplit : tokens = before ++ token :: after)
    (hlexeme : token.lexeme = .directive directive reading) :
    directive.Placed document.toList (firstLine + 1 + .ofNat (runNewlines before document))
      token.start token.stop := by
  obtain ⟨parts, hparts, h⟩ := bind_eq_ok_iff.mp h
  cases h
  exact placed_of_cuts [] document.toList rfl (behind_start (firstLine + 1)) hparts rfl hsplit
    hlexeme

/-- No sum wraps around in a checked reading, so the lines of a directive are counted exactly. -/
theorem counted_of_ofTextChecked (h : ofTextChecked grammar firstLine document = .ok tokens)
    (hsplit : tokens = before ++ token :: after)
    (hlexeme : token.lexeme = .directive directive reading) :
    directive.lines.1.toNat = firstLine.toNat + 1 + runNewlines before document ∧
      directive.lines.2.toNat = directive.lines.1.toNat + 1 := by
  obtain ⟨hread, htotal, hsites⟩ := fits_of_ofTextChecked h
  have hlines := (placed_of_ofTextWith hread hsplit hlexeme).lines_eq
  have hmem : token ∈ tokens := by rw [hsplit]; simp
  obtain ⟨site, hsite, hsiteRead⟩ := exists_site hread hmem hlexeme
  obtain ⟨_, hdirective⟩ := exists_reading hsiteRead
  obtain ⟨rfl, -⟩ := Lexeme.directive.inj hdirective
  have hnext : (site.cursor.line + 1).toNat = site.cursor.line.toNat + 1 :=
    toNat_add_ofNat (hsites site hsite).next
  refine ⟨?_, hnext⟩
  rw [hsplit, runNewlines_append] at htotal
  have hfirst : firstLine.toNat + 1 < UInt64.size := by omega
  have hbegin : (firstLine + 1).toNat = firstLine.toNat + 1 := toNat_add_ofNat hfirst
  have hbefore : (firstLine + 1).toNat + runNewlines before document < UInt64.size := by omega
  rw [hlines, toNat_add_ofNat hbefore, hbegin]

end Token

/-- Whatever the grammar, if it does not give up. -/
theorem located_of_ofTextWith (grammar : Grammar) (firstLine : UInt64) (document : String)
    (tokens : List Token) (h : Token.ofTextWith grammar firstLine document = .ok tokens) :
    Token.Located grammar firstLine document tokens where
  placed _ _ _ _ _ := Token.placed_of_ofTextWith h
  rechecked := Token.rechecked h
  counted hchecked _ _ _ _ _ := Token.counted_of_ofTextChecked hchecked
  frames_scan := (map_frame_tokens h).trans (Scan.frames_eq firstLine document.toList).symm
  lineEnd_scan sighting hin := by
    rw [(Scan.ofText_eq firstLine document.toList).1] at hin
    obtain ⟨site, _, rfl⟩ := List.mem_map.mp hin
    rfl

/-- A line begins inside the first directive, the second finds the end of line that the first looked
for, the third is a block, and an opening delimiter is never closed. Behind the last line that has a
number in a word the next is counted as zero, and a checked reading stops. -/
theorem located_of_ofTextWith_wrapped :
    let document := "é\n\x7b% a\n b=1 %\x7d \x7b% c %\x7d x\n  \x7b% d %\x7d\n\x7b% e"
    let places (tokens : List Token) := (tokens.map Token.frame).filterMap fun frame =>
      frame.shown.getRight?.map fun directive =>
        (directive.lines, directive.columns, directive.inline)
    (∃ tokens, Token.ofTextWith Grammar.standard 3 document = .ok tokens ∧
      Token.Located Grammar.standard 3 document tokens ∧
      places tokens = [((5, 6), (0, 12), true), ((5, 6), (8, 15), true), ((6, 7), (2, 9), false)] ∧
      (Scan.ofText 3 document.toList).1.map Sighting.lineEnd = [25, 25, 35] ∧
      Token.ofTextChecked Grammar.standard 3 document = .ok tokens) ∧
    ∃ tokens, Token.ofTextWith Grammar.standard (.ofNat (2 ^ 64 - 4)) document = .ok tokens ∧
      Token.Located Grammar.standard (.ofNat (2 ^ 64 - 4)) document tokens ∧
      places tokens = [((.ofNat (2 ^ 64 - 2), .ofNat (2 ^ 64 - 1)), (0, 12), true),
        ((.ofNat (2 ^ 64 - 2), .ofNat (2 ^ 64 - 1)), (8, 15), true),
        ((.ofNat (2 ^ 64 - 1), 0), (2, 9), false)] ∧
      Token.ofTextChecked Grammar.standard (.ofNat (2 ^ 64 - 4)) document = .error .overflow := by
  intro document places
  have hfits : (3 : UInt64).toNat + Text.newlines document.toList + 2 < UInt64.size := by
    decide +kernel
  have hsome : (Token.ofTextWith Grammar.standard 3 document).toOption.map places =
      some [((5, 6), (0, 12), true), ((5, 6), (8, 15), true), ((6, 7), (2, 9), false)] := by
    decide +kernel
  have hends : (Scan.ofText 3 document.toList).1.map Sighting.lineEnd = [25, 25, 35] := by
    decide +kernel
  have hlast : (Token.ofTextWith Grammar.standard (.ofNat (2 ^ 64 - 4)) document).toOption.map
      places = some [((.ofNat (2 ^ 64 - 2), .ofNat (2 ^ 64 - 1)), (0, 12), true),
        ((.ofNat (2 ^ 64 - 2), .ofNat (2 ^ 64 - 1)), (8, 15), true),
        ((.ofNat (2 ^ 64 - 1), 0), (2, 9), false)] := by
    decide +kernel
  have hhalt : (Token.ofTextChecked Grammar.standard (.ofNat (2 ^ 64 - 4)) document).toOption.map
      places = none := by
    decide +kernel
  constructor
  · obtain ⟨tokens, htokens, hplaces⟩ := Option.map_eq_some_iff.mp hsome
    have hok := toOption_eq_some_iff.mp htokens
    have hlocated := located_of_ofTextWith Grammar.standard 3 document tokens hok
    exact ⟨tokens, hok, hlocated, hplaces, hends, hlocated.rechecked.fits hfits⟩
  · obtain ⟨tokens, htokens, hplaces⟩ := Option.map_eq_some_iff.mp hlast
    have hok := toOption_eq_some_iff.mp htokens
    have hlocated := located_of_ofTextWith Grammar.standard _ document tokens hok
    refine ⟨tokens, hok, hlocated, hplaces, hlocated.rechecked.same_or.resolve_left fun h => ?_⟩
    rw [h] at hhalt
    cases hhalt

end TaggedText
