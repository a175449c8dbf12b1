import Mathlib
import TaggedText.Proofs.Tiling

/-!
# The layout of a text in two chunks

A chunk is a text that is empty or ends with a line feed. Where it holds no opening delimiter but those
of its directives, the directives of a longer text that begins with it are those of the chunk and
then those of what follows, and the latter stand where they would stand by themselves, further on by
the bytes of the chunk and by the lines of its text runs.

The text run behind the last directive of the chunk goes into the first text run of what follows. This
is the one difference, and only the run of a single site shows it.
-/
namespace TaggedText

namespace Delimiter

variable {text body rest : Text}

theorem closes_append (h : closes text) (more : Text) : closes (text ++ more) := by
  obtain ⟨rest, rfl⟩ := (closes_iff text).mp h
  exact (closes_iff _).mpr ⟨rest ++ more, List.append_assoc ..⟩

/-- A closing delimiter that stands in the longer text alone begins with the last character. -/
theorem eq_singleton_of_closes {c : Char} {more : Text} (hshort : ¬ closes (c :: text))
    (hlong : closes (c :: text ++ more)) : text = [] := by
  cases text with
  | nil => rfl
  | cons d text =>
      obtain ⟨rest, heq⟩ := (closes_iff _).mp hlong
      refine absurd ((closes_iff _).mpr ⟨text, ?_⟩) hshort
      simp only [closing, List.cons_append, List.nil_append, List.cons.injEq] at heq
      rw [heq.1, heq.2.1]
      rfl

theorem closeIndexFrom_append {mode : Mode} {n k : Nat}
    (h : closeIndexFrom mode n text = some k) (more : Text) :
    closeIndexFrom mode n (text ++ more) = some k := by
  induction text generalizing mode n with
  | nil => cases h
  | cons c cs ih =>
      rw [List.cons_append]
      unfold closeIndexFrom at h ⊢
      by_cases hstop : mode = .outside ∧ closes (c :: cs)
      · rw [if_pos hstop] at h
        rw [if_pos ⟨hstop.1, closes_append hstop.2 more⟩, h]
      · rw [if_neg hstop] at h
        rw [if_neg, ih h]
        rintro ⟨hmode, hlong⟩
        have hshort : ¬ closes (c :: cs) := fun hc => hstop ⟨hmode, hc⟩
        obtain rfl := eq_singleton_of_closes hshort hlong
        cases h

/-- A closing delimiter that was found is found in the longer text too. -/
theorem splitBody?_append (h : splitBody? text = some (body, rest)) (more : Text) :
    splitBody? (text ++ more) = some (body, rest ++ more) := by
  have htext := eq_of_splitBody? h
  obtain ⟨n, hn, hparts⟩ := Option.map_eq_some_iff.mp h
  obtain ⟨rfl, rfl⟩ := Prod.mk.inj hparts
  have hlength : n + closing.length ≤ text.length := by
    have hlengths := congrArg List.length htext
    simp only [List.length_append, List.length_take, List.length_drop] at hlengths
    have htwo : closing.length = 2 := rfl
    omega
  have hfound : closeIndex? (text ++ more) = some n := closeIndexFrom_append hn more
  rw [splitBody?, hfound, Option.map_some, List.take_append_of_le_length (by omega),
    List.drop_append_of_le_length hlength]

end Delimiter

namespace Layout

open Delimiter

variable {passed text more run : Text} {cut : Cut}

/-- No opening delimiter stands in the text. -/
def Clear (text : Text) : Prop :=
  ¬ opening <:+: text

theorem Clear.of_cons {c : Char} (h : Clear (c :: text)) : Clear text :=
  fun hin => h (List.infix_cons hin)

/-- A text that ends with a line feed, if it is not empty. -/
def IsChunk (text : Text) : Prop :=
  text = [] ∨ text.getLast? = some '\n'

/-- No opening delimiter comes about where the texts meet. -/
def Apart (text more : Text) : Prop :=
  text.getLast? = some '{' → more.head? ≠ some '%'

theorem Apart.of_cons {c : Char} (h : Apart (c :: text) more) : Apart text more := by
  cases text with
  | nil => exact nofun
  | cons d text =>
      rw [Apart, List.getLast?_cons_cons] at h
      exact h

theorem IsChunk.apart (h : IsChunk text) (more : Text) : Apart text more := by
  intro hlast
  rcases h with rfl | h
  · cases hlast
  · rw [h] at hlast
    exact absurd hlast (by decide)

/-- What was passed before only goes in front of the first run. -/
theorem firstCut?_passed (p q text : Text) :
    firstCut? (p ++ q) text =
      (firstCut? p text).map fun cut => { cut with run := q.reverse ++ cut.run } := by
  fun_induction firstCut? p text with
  | case1 => rfl
  | case2 p cs body rest hsplit =>
      rw [firstCut?, hsplit]
      simp
  | case3 p cs hsplit ih =>
      rw [firstCut?, hsplit]
      exact ih
  | case4 p c cs hopen ih =>
      rw [firstCut?]
      · exact ih
      · exact hopen

/-- Behind a text without an opening delimiter the search for a directive begins anew. -/
theorem firstCut?_append_of_clear (hclear : Clear text) (hapart : Apart text more)
    (passed : Text) : firstCut? passed (text ++ more) = firstCut? (text.reverse ++ passed) more := by
  induction text generalizing passed with
  | nil => rfl
  | cons c cs ih =>
      have hnext := ih hclear.of_cons hapart.of_cons (c :: passed)
      rw [List.cons_append, firstCut?, hnext, List.reverse_cons, List.append_assoc]
      · rfl
      · rintro ds rfl hds
        cases cs with
        | nil =>
            rw [List.nil_append] at hds
            exact hapart rfl (by rw [hds]; rfl)
        | cons d cs =>
            obtain ⟨rfl, -⟩ := List.cons.inj hds
            exact hclear ⟨[], cs, rfl⟩

/-- The first directive of a text is that of a longer text, unless an opening delimiter before it
is closed only there. -/
theorem firstCut?_append (h : firstCut? passed text = some cut) (hclear : Clear cut.run)
    (more : Text) :
    firstCut? passed (text ++ more) = some { cut with rest := cut.rest ++ more } := by
  fun_induction firstCut? passed text with
  | case1 => cases h
  | case2 passed cs body rest hsplit =>
      cases h
      rw [List.cons_append, List.cons_append, firstCut?, splitBody?_append hsplit]
  | case3 passed cs hsplit ih =>
      obtain ⟨run, hrun, -⟩ := exists_run_of_firstCut? h
      refine absurd ⟨passed.reverse, run, ?_⟩ hclear
      rw [hrun]
      simp [opening]
  | case4 passed c cs hopen ih =>
      rw [List.cons_append, firstCut?]
      · exact ih h
      · rintro ds rfl hds
        cases cs with
        | nil => cases h
        | cons d cs =>
            obtain ⟨rfl, -⟩ := List.cons.inj hds
            exact hopen cs rfl rfl

/-- The same directive with more text behind it. -/
def Cut.extend (more : Text) (cut : Cut) : Cut :=
  { cut with rest := cut.rest ++ more }

/-- The cuts of a text that stands behind a run. -/
def behindRun (run : Text) : List Cut × Text → List Cut × Text
  | ([], tail) => ([], run ++ tail)
  | (cut :: list, tail) => ({ cut with run := run ++ cut.run } :: list, tail)

theorem cuts_behind_run (run : Text) (hfirst : firstCut? [] (run ++ text) =
    (firstCut? [] text).map fun cut => { cut with run := run ++ cut.run }) :
    cuts (run ++ text) = behindRun run (cuts text) := by
  cases htext : firstCut? [] text with
  | none =>
      rw [htext] at hfirst
      rw [cuts_of_eq_none hfirst, cuts_of_eq_none htext]
      rfl
  | some cut =>
      rw [htext] at hfirst
      rw [cuts_of_eq_some hfirst, cuts_of_eq_some htext]
      rfl

theorem cuts_append_of_clear (hclear : Clear text) (hapart : Apart text more) :
    cuts (text ++ more) = behindRun text (cuts more) := by
  refine cuts_behind_run text ?_
  have hpassed := firstCut?_passed [] text.reverse more
  rw [firstCut?_append_of_clear hclear hapart, List.append_nil]
  rwa [List.nil_append, List.reverse_reverse] at hpassed

theorem IsChunk.rest (h : IsChunk text) (hcut : firstCut? [] text = some cut) :
    cut.rest.getLast? = some '\n' := by
  rcases h with rfl | h
  · cases hcut
  · rw [text_of_firstCut? hcut, List.getLast?_append] at h
    cases hlast : cut.rest.getLast? with
    | some c =>
        rw [hlast] at h
        exact h
    | none =>
        rw [hlast, List.getLast?_append] at h
        cases h

/-- The cuts of a chunk are cuts of every longer text, and those of the rest follow. -/
theorem cuts_append (hchunk : IsChunk text) (hclear : ∀ cut ∈ (cuts text).1, Clear cut.run)
    (htail : Clear (cuts text).2) (more : Text) :
    cuts (text ++ more) =
      ((cuts text).1.map (Cut.extend more) ++ (behindRun (cuts text).2 (cuts more)).1,
        (behindRun (cuts text).2 (cuts more)).2) := by
  induction text using cuts.induct with
  | case1 text hnone =>
      rw [cuts_of_eq_none hnone] at htail ⊢
      exact cuts_append_of_clear htail (hchunk.apart more)
  | case2 text cut hcut ih =>
      rw [cuts_of_eq_some hcut] at hclear htail
      obtain ⟨hrun, hclear⟩ := List.forall_mem_cons.mp hclear
      have hrest := ih (.inr (hchunk.rest hcut)) hclear htail
      rw [cuts_of_eq_some (firstCut?_append hcut hrun more), cuts_of_eq_some hcut, hrest]
      rfl

/-- A line feed stands behind each directive of a chunk. -/
theorem newline_mem_rest (hchunk : IsChunk text) (h : cut ∈ (cuts text).1) : '\n' ∈ cut.rest := by
  induction text using cuts.induct with
  | case1 text hnone =>
      rw [cuts_of_eq_none hnone] at h
      cases h
  | case2 text first hfirst ih =>
      rw [cuts_of_eq_some hfirst] at h
      have hrest := hchunk.rest hfirst
      rcases List.mem_cons.mp h with rfl | h
      · exact List.mem_of_getLast? hrest
      · exact ih (.inr hrest) h

theorem isChunk_tail (hchunk : IsChunk text) :
    text = [] ∨ (cuts text).2.getLast? = some '\n' := by
  rcases hchunk with hnil | hlast
  · exact .inl hnil
  · right
    induction text using cuts.induct with
    | case1 text hnone => rwa [cuts_of_eq_none hnone]
    | case2 text cut hcut ih =>
        rw [cuts_of_eq_some hcut]
        exact ih (IsChunk.rest (.inr hlast) hcut)

theorem line_foldl_pass (step : UInt64) (cursor : Cursor) (text : Text) :
    (text.foldl (Cursor.pass step) cursor).line = cursor.line + step * .ofNat text.newlines := by
  induction text generalizing cursor with
  | nil => simp [Text.newlines]
  | cons c cs ih =>
      rw [List.foldl_cons, ih]
      by_cases hc : c = '\n'
      · subst hc
        have hcount : Text.newlines ('\n' :: cs) = Text.newlines cs + 1 := List.count_cons_self
        have hone : step * UInt64.ofNat 1 = step := UInt64.mul_one step
        rw [hcount, Cursor.pass, if_pos rfl, UInt64.ofNat_add, UInt64.mul_add, hone,
          UInt64.add_assoc, UInt64.add_comm step]
      · have hcount : Text.newlines (c :: cs) = Text.newlines cs := List.count_cons_of_ne hc
        rw [hcount, Cursor.pass, if_neg hc]

/-- Behind a line feed a line begins. -/
theorem passRun_of_getLast? (cursor : Cursor) (h : run.getLast? = some '\n') :
    (cursor.passRun run).column = 0 ∧ (cursor.passRun run).blank = true := by
  obtain ⟨before, rfl⟩ := List.getLast?_eq_some_iff.mp h
  rw [Cursor.passRun, List.foldl_append, List.foldl_cons, List.foldl_nil, Cursor.pass, if_pos rfl]
  exact ⟨rfl, rfl⟩

theorem line_siteAt (cursor : Cursor) (cut : Cut) :
    (siteAt cursor cut).cursor.line = cursor.line + .ofNat cut.run.newlines := by
  rw [siteAt, Cursor.passRun, line_foldl_pass, UInt64.one_mul]

theorem line_after (site : Site) : site.after.line = site.cursor.line := by
  rw [Site.after, Cursor.passDirective, line_foldl_pass, UInt64.zero_mul, UInt64.add_zero]

theorem line_sitesFrom (cursor : Cursor) (list : List Cut) :
    (sitesFrom cursor list).2.line =
      cursor.line + .ofNat (list.map fun cut => cut.run.newlines).sum := by
  induction list generalizing cursor with
  | nil => exact (UInt64.add_zero cursor.line).symm
  | cons cut list ih =>
      change (sitesFrom (siteAt cursor cut).after list).2.line = _
      rw [ih, line_after, line_siteAt, List.map_cons, List.sum_cons, UInt64.ofNat_add,
        UInt64.add_assoc]

theorem offset_cuts (cursor : Cursor) (text : Text) :
    (sitesFrom cursor (cuts text).1).2.offset + (cuts text).2.width =
      cursor.offset + text.width := by
  induction text using cuts.induct generalizing cursor with
  | case1 text hnone =>
      rw [cuts_of_eq_none hnone]
      rfl
  | case2 text cut hcut ih =>
      have hwidth := congrArg Text.width (text_of_firstCut? hcut)
      have hnext := ih (siteAt cursor cut).after
      have hsource : (siteAt cursor cut).source.width = 2 + cut.body.width + 2 := by
        simp [siteAt, Site.source, Nat.add_assoc]
      rw [offset_after, offset_siteAt, hsource] at hnext
      simp only [Text.width_append, width_opening, width_closing] at hwidth
      rw [cuts_of_eq_some hcut]
      change (sitesFrom (siteAt cursor cut).after (cuts cut.rest).1).2.offset +
        (cuts cut.rest).2.width = _
      omega

/-- Further on in the document, on the same column. -/
def Cursor.shift (d : Nat) (cursor : Cursor) : Cursor :=
  { cursor with offset := cursor.offset + d }

theorem foldl_pass_shift (step : UInt64) (d : Nat) (cursor : Cursor) (text : Text) :
    text.foldl (Cursor.pass step) (cursor.shift d) =
      (text.foldl (Cursor.pass step) cursor).shift d := by
  induction text generalizing cursor with
  | nil => rfl
  | cons c cs ih =>
      have hpass : (cursor.shift d).pass step c = (cursor.pass step c).shift d := by
        unfold Cursor.pass
        split
        · simp only [Cursor.shift, Cursor.mk.injEq, and_self, and_true]
          omega
        · simp only [Cursor.shift, Cursor.mk.injEq, and_self, and_true]
          omega
      rw [List.foldl_cons, List.foldl_cons, hpass, ih]

/-- The same site further on in the document. -/
def Site.shift (d : Nat) (site : Site) : Site :=
  { site with cursor := site.cursor.shift d }

/-- The site without its run. -/
def Site.bare (site : Site) : Site :=
  { site with run := [] }

theorem siteAt_shift (d : Nat) (cursor : Cursor) (cut : Cut) :
    siteAt (cursor.shift d) cut = (siteAt cursor cut).shift d := by
  simp only [siteAt, Cursor.passRun, foldl_pass_shift]
  rfl

theorem sitesFrom_shift (d : Nat) (cursor : Cursor) (list : List Cut) :
    (sitesFrom (cursor.shift d) list).1 = (sitesFrom cursor list).1.map (Site.shift d) := by
  induction list generalizing cursor with
  | nil => rfl
  | cons cut list ih =>
      have hafter : ((siteAt cursor cut).shift d).after = (siteAt cursor cut).after.shift d :=
        foldl_pass_shift ..
      simp only [sitesFrom, siteAt_shift, hafter, ih, List.map_cons]

theorem sitesFrom_append (cursor : Cursor) (list others : List Cut) :
    (sitesFrom cursor (list ++ others)).1 =
      (sitesFrom cursor list).1 ++ (sitesFrom (sitesFrom cursor list).2 others).1 := by
  induction list generalizing cursor with
  | nil => rfl
  | cons cut list ih => simp only [List.cons_append, sitesFrom, ih]

theorem restOfLineBlank_append (h : '\n' ∈ text) (more : Text) :
    Text.restOfLineBlank (text ++ more) = text.restOfLineBlank := by
  induction text with
  | nil => cases h
  | cons c cs ih =>
      by_cases hc : c = '\n'
      · simp [Text.restOfLineBlank, hc]
      · have hcs : '\n' ∈ cs := (List.mem_cons.mp h).resolve_left (Ne.symm hc)
        rw [List.cons_append, Text.restOfLineBlank, ih hcs, Text.restOfLineBlank]

/-- More text behind the end of the line changes no site. -/
theorem sitesFrom_extend {list : List Cut} (h : ∀ cut ∈ list, '\n' ∈ cut.rest) (cursor : Cursor)
    (more : Text) : sitesFrom cursor (list.map (Cut.extend more)) = sitesFrom cursor list := by
  induction list generalizing cursor with
  | nil => rfl
  | cons cut list ih =>
      obtain ⟨hcut, hlist⟩ := List.forall_mem_cons.mp h
      have hsite : siteAt cursor (cut.extend more) = siteAt cursor cut := by
        simp only [siteAt, Cut.extend, restOfLineBlank_append hcut]
      simp only [List.map_cons, sitesFrom, hsite, ih hlist]

/-- Of the cuts behind a run the first site shows it in its own run, and nothing else does. -/
theorem sitesFrom_behindRun (cursor : Cursor) (run : Text) (list : List Cut × Text) :
    (sitesFrom cursor (behindRun run list).1).1.map Site.bare =
      (sitesFrom (cursor.passRun run) list.1).1.map Site.bare := by
  match list with
  | ([], tail) => rfl
  | (cut :: list, tail) =>
      have hreached : cursor.passRun (run ++ cut.run) = (cursor.passRun run).passRun cut.run :=
        List.foldl_append
      simp only [behindRun, sitesFrom, List.map_cons, siteAt, hreached]
      rfl

/-- The line feeds of all text runs. -/
def runNewlines (list : List Cut × Text) : Nat :=
  (list.1.map fun cut => cut.run.newlines).sum + list.2.newlines

theorem column_tail (cursor : Cursor) (hcolumn : cursor.column = 0) (hblank : cursor.blank = true)
    (hchunk : IsChunk text) :
    ((sitesFrom cursor (cuts text).1).2.passRun (cuts text).2).column = 0 ∧
      ((sitesFrom cursor (cuts text).1).2.passRun (cuts text).2).blank = true := by
  rcases isChunk_tail hchunk with rfl | hlast
  · rw [cuts_of_eq_none rfl]
    exact ⟨hcolumn, hblank⟩
  · exact passRun_of_getLast? _ hlast

/-- The cursor behind a chunk stands at the beginning of a line. -/
theorem passRun_tail (firstLine : UInt64) (hchunk : IsChunk text) :
    (sitesFrom ⟨0, firstLine + 1, 0, true⟩ (cuts text).1).2.passRun (cuts text).2 =
      Cursor.shift text.width ⟨0, firstLine + .ofNat (runNewlines (cuts text)) + 1, 0, true⟩ := by
  have hoffset := offset_cuts ⟨0, firstLine + 1, 0, true⟩ text
  have hline := line_sitesFrom ⟨0, firstLine + 1, 0, true⟩ (cuts text).1
  have hbegin := column_tail ⟨0, firstLine + 1, 0, true⟩ rfl rfl hchunk
  rw [← offset_foldl_pass 1] at hoffset
  have hlines := line_foldl_pass 1 (sitesFrom ⟨0, firstLine + 1, 0, true⟩ (cuts text).1).2
    (cuts text).2
  rw [hline] at hlines
  rw [Cursor.passRun] at hbegin ⊢
  generalize List.foldl (Cursor.pass 1) _ _ = reached at hoffset hlines hbegin ⊢
  obtain ⟨offset, line, column, blank⟩ := reached
  simp only [Cursor.shift, Cursor.mk.injEq, runNewlines] at hoffset hlines hbegin ⊢
  refine ⟨hoffset, ?_, hbegin⟩
  rw [hlines, UInt64.one_mul, UInt64.ofNat_add, UInt64.add_assoc (firstLine + 1),
    UInt64.add_assoc firstLine, UInt64.add_comm 1, ← UInt64.add_assoc]

/-- The directives of a chunk and of what follows it. -/
theorem sites_append (firstLine : UInt64) (hchunk : IsChunk text)
    (hclear : ∀ cut ∈ (cuts text).1, Clear cut.run) (htail : Clear (cuts text).2) (more : Text) :
    (ofText firstLine (text ++ more)).sites.map Site.bare =
      (ofText firstLine text).sites.map Site.bare ++
        ((ofText (firstLine + .ofNat (runNewlines (cuts text))) more).sites.map
          (Site.shift text.width)).map Site.bare := by
  simp only [ofText, cuts_append hchunk hclear htail, sitesFrom_append, List.map_append]
  rw [sitesFrom_extend fun _ => newline_mem_rest hchunk, sitesFrom_behindRun,
    passRun_tail firstLine hchunk, sitesFrom_shift]

end Layout
end TaggedText
