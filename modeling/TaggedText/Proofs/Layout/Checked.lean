import TaggedText.Proofs.Chunks
import TaggedText.Token.Checked

/-!
# Checked readings

A checked reading gives the tokens that are read without checks, or it stops. Where it gives them,
no sum that makes a line number wraps around, so the words are the numbers of the lines. It gives
them for every document whose line feeds can be counted on in a word from the lines before it.
-/
namespace TaggedText

open Layout

variable {grammar : Grammar} {firstLine line : UInt64} {document : String} {tokens : List Token}
  {lines : Nat}

theorem toNat_add_ofNat (h : line.toNat + lines < UInt64.size) :
    (line + .ofNat lines).toNat = line.toNat + lines := by
  rw [UInt64.toNat_add, UInt64.toNat_ofNat', Nat.add_mod_mod]
  exact Nat.mod_eq_of_lt h

/-- The checked computation stops at a sum, or does what the one without checks does. -/
def Halt.Agrees {α : Type} (checked : Except Halt α) (plain : Except LexError α) : Prop :=
  checked = .error .overflow ∨ checked = plain.mapError .refused

namespace Halt.Agrees

variable {α β : Type} {checked : Except Halt α} {plain : Except LexError α}

theorem pure (a : α) : Agrees (.ok a) (.ok a) :=
  .inr rfl

theorem bind {next : α → Except Halt β} {plainNext : α → Except LexError β}
    (h : Agrees checked plain) (hnext : ∀ a, Agrees (next a) (plainNext a)) :
    Agrees (checked >>= next) (plain >>= plainNext) := by
  rcases h with rfl | rfl
  · exact .inl rfl
  · cases plain with
    | error e => exact .inr rfl
    | ok a => exact hnext a

/-- A check that comes first changes nothing else. -/
theorem check {x : Except Halt Unit} (hx : Agrees x (.ok ())) (h : Agrees checked plain) :
    Agrees (x >>= fun _ => checked) plain :=
  hx.bind fun _ => h

end Halt.Agrees

namespace Layout

variable {site : Site}

theorem checkLine_eq_ok_iff :
    checkLine line lines = .ok () ↔ line.toNat + lines < UInt64.size := by
  unfold checkLine
  split
  next h => simp [h]
  next h => simp [h]

theorem checkLine_ne_overflow (h : line.toNat + lines < UInt64.size) :
    checkLine line lines ≠ .error .overflow :=
  ne_error_of_eq_ok (checkLine_eq_ok_iff.mpr h)

theorem agrees_checkLine (line : UInt64) (lines : Nat) :
    Halt.Agrees (checkLine line lines) (.ok ()) := by
  unfold checkLine
  split
  next => exact .inr rfl
  next => exact .inl rfl

/-- The lines of a directive and of a syntax error in it have numbers. -/
structure Site.LinesFit (grammar : Grammar) (site : Site) : Prop where
  next : site.cursor.line.toNat + 1 < UInt64.size
  error : ∀ e, grammar site.body.trim = .error (.malformed e) → ∀ offset ∈ [e.start, e.stop],
    site.cursor.line.toNat + (site.source.takeBytes (site.reach offset)).newlines < UInt64.size

theorem Site.checkLines_eq_ok_iff : site.checkLines grammar = .ok () ↔ site.LinesFit grammar := by
  have hplace : ∀ offset, site.checkPlace offset = .ok () ↔ site.cursor.line.toNat +
      (site.source.takeBytes (site.reach offset)).newlines < UInt64.size :=
    fun _ => checkLine_eq_ok_iff
  unfold checkLines
  rw [check_bind_eq_ok_iff, checkLine_eq_ok_iff]
  split
  next e hbody =>
    rw [check_bind_eq_ok_iff, hplace, hplace]
    constructor
    · rintro ⟨hnext, hstart, hstop⟩
      refine ⟨hnext, fun e' he offset hin => ?_⟩
      cases hbody.symm.trans he
      rcases List.mem_pair.mp hin with rfl | rfl
      · exact hstart
      · exact hstop
    · rintro ⟨hnext, herror⟩
      exact ⟨hnext, herror e hbody _ (by simp), herror e hbody _ (by simp)⟩
  next hbody =>
    constructor
    · rintro ⟨hnext, -⟩
      exact ⟨hnext, fun e he => absurd he (hbody e)⟩
    · rintro ⟨hnext, -⟩
      exact ⟨hnext, rfl⟩

theorem Site.agrees_checkLines (grammar : Grammar) (site : Site) :
    Halt.Agrees (site.checkLines grammar) (.ok ()) := by
  refine .check (agrees_checkLine ..) ?_
  split
  next => exact .check (agrees_checkLine ..) (agrees_checkLine ..)
  next => exact .pure ()

/-- The tokens of a site are checked and then read. -/
theorem Site.agrees_checkedTokens (grammar : Grammar) (line : UInt64) (site : Site) :
    Halt.Agrees (site.checkedTokens grammar line) (site.tokens grammar) :=
  .check (agrees_checkLine ..) (.check (site.agrees_checkLines grammar) (.inr rfl))

theorem agrees_checkedSites (grammar : Grammar) (tail : Text) (line : UInt64) (sites : List Site) :
    Halt.Agrees (checkedSites grammar tail line sites)
      (do return (← sites.mapM (Site.tokens grammar)).flatten) := by
  induction sites generalizing line with
  | nil => exact .check (agrees_checkLine ..) (.pure [])
  | cons site sites ih =>
      have hplain : (do return (← (site :: sites).mapM (Site.tokens grammar)).flatten) = (do
          let tokens ← site.tokens grammar
          let others ← (do return (← sites.mapM (Site.tokens grammar)).flatten)
          return tokens ++ others) := by
        simp only [List.mapM_cons, bind_assoc, pure_bind, List.flatten_cons]
      rw [hplain]
      exact (site.agrees_checkedTokens grammar line).bind fun tokens =>
        (ih site.cursor.line).bind fun others => .pure (tokens ++ others)

end Layout

theorem Token.agrees_ofTextChecked (grammar : Grammar) (firstLine : UInt64) (document : String) :
    Halt.Agrees (ofTextChecked grammar firstLine document)
      (ofTextWith grammar firstLine document) := by
  have hplain : ofTextWith grammar firstLine document = (do
      let tokens ← (do
        return (← (Layout.ofText firstLine document.toList).sites.mapM
          (Site.tokens grammar)).flatten)
      return tokens ++ [(Layout.ofText firstLine document.toList).lastToken]) := by
    simp only [ofTextWith, Layout.tokens, bind_assoc, pure_bind]
  rw [hplain]
  exact .check (agrees_checkLine ..) (.bind (agrees_checkedSites ..) fun tokens => .pure _)

namespace Layout

variable {run : Text} {cursor : Cursor} {cut : Cut} {list : List Cut}

theorem toNat_line_siteAt (h : cursor.line.toNat + cut.run.newlines < UInt64.size) :
    (siteAt cursor cut).cursor.line.toNat = cursor.line.toNat + cut.run.newlines := by
  rw [line_siteAt, toNat_add_ofNat h]

/-- Where the checks let everything pass, the numbers fit. -/
theorem fits_of_checkedSites
    (h : checkedSites grammar run cursor.line (sitesFrom cursor list).1 = .ok tokens) :
    cursor.line.toNat + runNewlines (list, run) < UInt64.size ∧
      ∀ site ∈ (sitesFrom cursor list).1, site.LinesFit grammar := by
  induction list generalizing cursor tokens with
  | nil =>
      obtain ⟨hlast, -⟩ := check_bind_eq_ok_iff.mp h
      refine ⟨?_, fun site hin => absurd hin List.not_mem_nil⟩
      simpa [runNewlines] using checkLine_eq_ok_iff.mp hlast
  | cons cut list ih =>
      obtain ⟨_, hsite, h⟩ := bind_eq_ok_iff.mp h
      obtain ⟨_, hothers, -⟩ := bind_eq_ok_iff.mp h
      obtain ⟨hrun, hsite⟩ := check_bind_eq_ok_iff.mp hsite
      obtain ⟨hlines, -⟩ := check_bind_eq_ok_iff.mp hsite
      have hreached := toNat_line_siteAt (checkLine_eq_ok_iff.mp hrun)
      rw [← line_after] at hothers
      obtain ⟨hlater, hsites⟩ := ih hothers
      rw [line_after, hreached] at hlater
      refine ⟨?_, List.forall_mem_cons.mpr ⟨Site.checkLines_eq_ok_iff.mp hlines, hsites⟩⟩
      simp only [runNewlines, List.map_cons, List.sum_cons] at hlater ⊢
      omega

/-- Where the numbers fit, the checks let everything pass. -/
theorem checkedSites_ne_overflow
    (hrun : cursor.line.toNat + runNewlines (list, run) < UInt64.size)
    (hsites : ∀ site ∈ (sitesFrom cursor list).1, site.LinesFit grammar) :
    checkedSites grammar run cursor.line (sitesFrom cursor list).1 ≠ .error .overflow := by
  induction list generalizing cursor with
  | nil =>
      have hlast : cursor.line.toNat + run.newlines < UInt64.size := by
        simpa [runNewlines] using hrun
      exact bind_ne_error (checkLine_ne_overflow hlast) fun _ => ne_error_of_eq_ok rfl
  | cons cut list ih =>
      obtain ⟨hsite, hsites⟩ := List.forall_mem_cons.mp hsites
      have hfits : cursor.line.toNat + cut.run.newlines +
          runNewlines (list, run) < UInt64.size := by
        simp only [runNewlines, List.map_cons, List.sum_cons] at hrun ⊢
        omega
      have hbefore : cursor.line.toNat + cut.run.newlines < UInt64.size :=
        Nat.lt_of_le_of_lt (Nat.le_add_right ..) hfits
      have hreached := toNat_line_siteAt hbefore
      have hothers := ih (by rwa [line_after, hreached]) hsites
      rw [line_after] at hothers
      refine bind_ne_error (bind_ne_error ?_ fun _ => bind_ne_error ?_ fun _ => ?_) fun _ =>
        bind_ne_error hothers fun _ => ne_error_of_eq_ok rfl
      · exact checkLine_ne_overflow hbefore
      · exact ne_error_of_eq_ok (Site.checkLines_eq_ok_iff.mpr hsite)
      · cases (siteAt cursor cut).tokens grammar with
        | error e =>
            intro h
            cases h
        | ok tokens => exact ne_error_of_eq_ok rfl

/-- Each line of a text is at most as many lines further on as the text has line feeds. -/
theorem lines_le (cursor : Cursor) (text : Text)
    (h : cursor.line.toNat + text.newlines < UInt64.size) :
    runNewlines (cuts text) ≤ text.newlines ∧
      ∀ site ∈ (sitesFrom cursor (cuts text).1).1,
        site.cursor.line.toNat + site.source.newlines ≤ cursor.line.toNat + text.newlines := by
  induction text using cuts.induct generalizing cursor with
  | case1 text hnone =>
      rw [cuts_of_eq_none hnone]
      exact ⟨by simp [runNewlines], fun site hin => absurd hin List.not_mem_nil⟩
  | case2 text cut hcut ih =>
      have htext : text.newlines = cut.run.newlines + (siteAt cursor cut).source.newlines +
          cut.rest.newlines := by
        have happend := congrArg Text.newlines (append_of_firstCut? hcut [] cursor)
        simpa only [List.nil_append, Text.newlines_append] using happend
      have hbefore : cursor.line.toNat + cut.run.newlines < UInt64.size := by omega
      have hreached := toNat_line_siteAt hbefore
      obtain ⟨hruns, hsites⟩ := ih (siteAt cursor cut).after (by rw [line_after]; omega)
      rw [cuts_of_eq_some hcut]
      constructor
      · simp only [runNewlines, List.map_cons, List.sum_cons] at hruns ⊢
        omega
      · refine List.forall_mem_cons.mpr ⟨by omega, fun site hin => ?_⟩
        have hsite := hsites site hin
        rw [line_after] at hsite
        omega

end Layout

namespace Token

/-- A checked reading that gives tokens gives those that are read without checks, and all lines
have numbers. -/
theorem fits_of_ofTextChecked (h : ofTextChecked grammar firstLine document = .ok tokens) :
    ofTextWith grammar firstLine document = .ok tokens ∧
      firstLine.toNat + 1 + runNewlines tokens document < UInt64.size ∧
      ∀ site ∈ (Layout.ofText firstLine document.toList).sites, site.LinesFit grammar := by
  have hread : ofTextWith grammar firstLine document = .ok tokens := by
    rcases agrees_ofTextChecked grammar firstLine document with hhalt | hsame
    · rw [h] at hhalt
      cases hhalt
    · rw [h] at hsame
      exact mapError_eq_ok_iff.mp hsame.symm
  obtain ⟨hfirst, h⟩ := check_bind_eq_ok_iff.mp h
  obtain ⟨_, hsites, -⟩ := bind_eq_ok_iff.mp h
  have hbegin : (firstLine + 1).toNat = firstLine.toNat + 1 :=
    toNat_add_ofNat (checkLine_eq_ok_iff.mp hfirst)
  have hfits := @fits_of_checkedSites _ _ _ ⟨0, firstLine + 1, 0, true⟩ _ hsites
  rw [hbegin] at hfits
  rw [runNewlines_eq hread]
  exact ⟨hread, hfits⟩

/-- Line feeds that can be counted on in a word do not stop a checked reading. -/
theorem ofTextChecked_of_fits (h : ofTextWith grammar firstLine document = .ok tokens)
    (hfits : firstLine.toNat + Text.newlines document.toList + 2 < UInt64.size) :
    ofTextChecked grammar firstLine document = .ok tokens := by
  rcases agrees_ofTextChecked grammar firstLine document with hhalt | hsame
  · have hfirst : firstLine.toNat + 1 < UInt64.size := by omega
    have hbegin : (firstLine + 1).toNat = firstLine.toNat + 1 := toNat_add_ofNat hfirst
    obtain ⟨hruns, hlines⟩ := lines_le ⟨0, firstLine + 1, 0, true⟩ document.toList
      (by rw [hbegin]; omega)
    rw [hbegin] at hlines
    have hsites : ∀ site ∈ (sitesFrom ⟨0, firstLine + 1, 0, true⟩ (cuts document.toList).1).1,
        site.LinesFit grammar := by
      intro site hin
      have hsite := hlines site hin
      refine ⟨by omega, fun e _ offset _ => ?_⟩
      have hinside := Text.newlines_takeBytes_le (site.reach offset) site.source
      omega
    have hall : (firstLine + 1).toNat + Layout.runNewlines (cuts document.toList) <
        UInt64.size := by omega
    have hpasses : checkedSites grammar (cuts document.toList).2 (firstLine + 1)
        (sitesFrom ⟨0, firstLine + 1, 0, true⟩ (cuts document.toList).1).1 ≠ .error .overflow :=
      @checkedSites_ne_overflow _ _ ⟨0, firstLine + 1, 0, true⟩ _ hall hsites
    refine absurd hhalt (bind_ne_error (checkLine_ne_overflow hfirst) fun _ => ?_)
    exact bind_ne_error hpasses fun _ => ne_error_of_eq_ok rfl
  · rw [hsame, h]
    rfl

/-- A checked reading gives these tokens or stops at a sum, and it does not stop where the line
feeds of the document can be counted on in a word from the lines before it. -/
structure Rechecked (grammar : Grammar) (firstLine : UInt64) (document : String)
    (tokens : List Token) : Prop where
  same_or : ofTextChecked grammar firstLine document = .ok tokens ∨
    ofTextChecked grammar firstLine document = .error .overflow
  fits : firstLine.toNat + Text.newlines document.toList + 2 < UInt64.size →
    ofTextChecked grammar firstLine document = .ok tokens

theorem rechecked (h : ofTextWith grammar firstLine document = .ok tokens) :
    Rechecked grammar firstLine document tokens where
  same_or := by
    have hagrees := agrees_ofTextChecked grammar firstLine document
    rw [h] at hagrees
    exact hagrees.symm
  fits := ofTextChecked_of_fits h

theorem runNewlines_append (before after : List Token) (document : String) :
    runNewlines (before ++ after) document =
      runNewlines before document + runNewlines after document := by
  simp only [runNewlines, List.filter_append, List.map_append, List.sum_append]

end Token

end TaggedText
