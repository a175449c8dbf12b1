import Mathlib.Data.List.TakeWhile
import TaggedText.Proofs.Offsets

/-!
# Where lines begin and end

The line around an offset begins behind the last line feed before the offset and ends at the first
one from there on. Both are found from one of the two parts into which the offset takes the text
apart. Two offsets in one line have the same end of line in common, so an end that was found for one
need not be looked for again.
-/
namespace TaggedText.Text

variable {a b c text : Text} {offset : Nat}

/-- What stands up to the last line feed, that one included. -/
def untilLine (text : Text) : Text :=
  (text.reverse.dropWhile (· ≠ '\n')).reverse

/-- What stands before the first line feed. -/
def restOfLine (text : Text) : Text :=
  text.takeWhile (· ≠ '\n')

def lineBegin (text : Text) (offset : Nat) : Nat :=
  (untilLine (takeBytes offset text)).width

def lineEnd (text : Text) (offset : Nat) : Nat :=
  offset + (restOfLine (dropBytes offset text)).width

/-- The line around `offset` begins at `start`. -/
structure LineBegins (text : Text) (start offset : Nat) : Prop where
  le : start ≤ offset
  same_line : '\n' ∉ text.slice start offset
  behind_newline : start = 0 ∨ text.slice (start - 1) start = ['\n']

/-- The line around `offset` ends at `stop`. -/
structure LineEnds (text : Text) (stop offset : Nat) : Prop where
  le : offset ≤ stop
  same_line : '\n' ∉ text.slice offset stop
  at_newline : stop = text.width ∨ text.slice stop (stop + 1) = ['\n']

theorem width_singleton (c : Char) : width [c] = c.utf8Size := by
  rw [width_cons, width_nil, Nat.add_zero]

theorem width_le_append (a b : Text) : a.width ≤ (a ++ b).width := by
  rw [width_append]
  exact Nat.le_add_right ..

theorem untilLine_append_lastLine (text : Text) : untilLine text ++ lastLine text = text := by
  rw [untilLine, lastLine, ← List.reverse_append, List.takeWhile_append_dropWhile,
    List.reverse_reverse]

theorem width_untilLine_add_lastLine (text : Text) :
    (untilLine text).width + (lastLine text).width = text.width := by
  rw [← width_append, untilLine_append_lastLine]

theorem newline_notMem_lastLine (text : Text) : '\n' ∉ lastLine text := by
  intro hin
  have hother := List.mem_takeWhile_imp (List.mem_reverse.mp hin)
  exact of_decide_eq_true hother rfl

theorem newline_notMem_restOfLine (text : Text) : '\n' ∉ restOfLine text := by
  intro hin
  have hother := List.mem_takeWhile_imp hin
  exact of_decide_eq_true hother rfl

theorem lastLine_concat (text : Text) (c : Char) :
    lastLine (text ++ [c]) = if c = '\n' then [] else lastLine text ++ [c] := by
  by_cases hc : c = '\n'
  · simp [lastLine, hc]
  · simp [lastLine, hc]

theorem untilLine_concat (text : Text) (c : Char) :
    untilLine (text ++ [c]) = if c = '\n' then text ++ [c] else untilLine text := by
  by_cases hc : c = '\n'
  · simp [untilLine, hc]
  · simp [untilLine, hc]

theorem isOther_of_notMem (h : '\n' ∉ text) : ∀ c ∈ text, decide (c ≠ '\n') = true :=
  fun _ hc => decide_eq_true fun heq => h (heq ▸ hc)

theorem isOther_reverse_of_notMem (h : '\n' ∉ text) :
    ∀ c ∈ text.reverse, decide (c ≠ '\n') = true :=
  isOther_of_notMem fun hin => h (List.mem_reverse.mp hin)

theorem exists_last_newline (h : '\n' ∈ text) :
    ∃ before line, text = before ++ '\n' :: line ∧ '\n' ∉ line := by
  obtain ⟨line, before, hreverse, hline⟩ := List.eq_append_cons_of_mem (List.mem_reverse.mpr h)
  refine ⟨before.reverse, line.reverse, ?_, fun hin => hline (List.mem_reverse.mp hin)⟩
  rw [← List.reverse_reverse text, hreverse]
  simp

theorem untilLine_append_of_notMem (a : Text) (h : '\n' ∉ b) :
    untilLine (a ++ b) = untilLine a := by
  rw [untilLine, List.reverse_append, List.dropWhile_append_of_pos (isOther_reverse_of_notMem h),
    untilLine]

theorem untilLine_append_cons (a : Text) (h : '\n' ∉ b) :
    untilLine (a ++ '\n' :: b) = a ++ ['\n'] := by
  have happend := untilLine_append_of_notMem (a ++ ['\n']) h
  rwa [untilLine_concat, if_pos rfl, List.append_assoc] at happend

theorem untilLine_append_of_mem (a : Text) (h : '\n' ∈ b) :
    untilLine (a ++ b) = a ++ untilLine b := by
  obtain ⟨before, line, rfl, hline⟩ := exists_last_newline h
  rw [← List.append_assoc, untilLine_append_cons _ hline, untilLine_append_cons _ hline,
    List.append_assoc]

theorem beforeLastLine_append_cons (a : Text) (h : '\n' ∉ b) :
    beforeLastLine (a ++ '\n' :: b) = a := by
  rw [beforeLastLine, List.reverse_append, List.reverse_cons, List.append_assoc,
    List.dropWhile_append_of_pos (isOther_reverse_of_notMem h)]
  simp

/-- Where there is a line feed, the last one ends what stands up to it. -/
theorem untilLine_of_mem (h : '\n' ∈ text) : untilLine text = beforeLastLine text ++ ['\n'] := by
  obtain ⟨before, line, rfl, hline⟩ := exists_last_newline h
  rw [untilLine_append_cons _ hline, beforeLastLine_append_cons _ hline]

theorem eq_append_of_mem (h : '\n' ∈ text) :
    text = beforeLastLine text ++ '\n' :: lastLine text := by
  have happend := untilLine_append_lastLine text
  rw [untilLine_of_mem h, List.append_assoc] at happend
  exact happend.symm

theorem lastLine_append_of_mem (a : Text) (h : '\n' ∈ b) : lastLine (a ++ b) = lastLine b := by
  have happend := untilLine_append_lastLine (a ++ b)
  rw [untilLine_append_of_mem a h, List.append_assoc, List.append_cancel_left_eq] at happend
  exact List.append_cancel_left (happend.trans (untilLine_append_lastLine b).symm)

theorem lastLine_append_of_notMem (a : Text) (h : '\n' ∉ b) :
    lastLine (a ++ b) = lastLine a ++ b := by
  have happend := untilLine_append_lastLine (a ++ b)
  rw [untilLine_append_of_notMem a h] at happend
  refine List.append_cancel_left (happend.trans ?_)
  rw [← List.append_assoc, untilLine_append_lastLine]

theorem untilLine_of_notMem (h : '\n' ∉ text) : untilLine text = [] :=
  untilLine_append_of_notMem [] h

theorem beforeLastLine_of_notMem (h : '\n' ∉ text) : beforeLastLine text = [] := by
  have hnil := List.dropWhile_eq_nil_iff.mpr (isOther_reverse_of_notMem h)
  rw [beforeLastLine, hnil]
  rfl

theorem restOfLine_append_of_notMem (h : '\n' ∉ a) (b : Text) :
    restOfLine (a ++ b) = a ++ restOfLine b :=
  List.takeWhile_append_of_pos (isOther_of_notMem h)

theorem restOfLine_append_cons (h : '\n' ∉ a) (b : Text) : restOfLine (a ++ '\n' :: b) = a := by
  rw [restOfLine_append_of_notMem h]
  simp [restOfLine]

theorem restOfLine_of_notMem (h : '\n' ∉ text) : restOfLine text = text :=
  List.takeWhile_eq_self_iff.mpr (isOther_of_notMem h)

theorem restOfLineBlank_eq (text : Text) :
    restOfLineBlank text = (restOfLine text).all isBlank := by
  rw [Bool.eq_iff_iff, restOfLineBlank_iff, List.all_eq_true]
  rfl

theorem lineBegin_append (a b : Text) : lineBegin (a ++ b) a.width = (untilLine a).width := by
  rw [lineBegin, takeBytes_width_append]

theorem lineEnd_append (a b : Text) :
    lineEnd (a ++ b) a.width = (a ++ restOfLine b).width := by
  rw [lineEnd, dropBytes_width_append, width_append]

/-- No line begins inside the character that an offset cuts. -/
theorem lineBegin_le (text : Text) (offset : Nat) : lineBegin text offset ≤ offset := by
  unfold lineBegin
  induction text generalizing offset with
  | nil =>
      cases offset with
      | zero => exact Nat.le_refl 0
      | succ n => exact Nat.zero_le _
  | cons c cs ih =>
      cases offset with
      | zero =>
          rw [takeBytes_zero]
          exact Nat.le_refl 0
      | succ n =>
          have hlater := ih (n + 1 - c.utf8Size)
          rw [takeBytes]
          by_cases hcs : '\n' ∈ takeBytes (n + 1 - c.utf8Size) cs
          · have hsize : n + 1 - c.utf8Size ≠ 0 := by
              intro hzero
              rw [hzero, takeBytes_zero] at hcs
              cases hcs
            have huntil := untilLine_append_of_mem [c] hcs
            rw [List.singleton_append, List.singleton_append] at huntil
            rw [huntil, width_cons]
            omega
          · have huntil := untilLine_append_of_notMem [c] hcs
            rw [List.singleton_append] at huntil
            rw [huntil]
            by_cases hc : c = '\n'
            · subst hc
              exact Nat.le_add_left 1 n
            · have hother : '\n' ∉ [c] := fun hin => hc (List.mem_singleton.mp hin).symm
              rw [untilLine_of_notMem hother]
              exact Nat.zero_le _

theorem slice_lineBegin_eq (text : Text) (offset : Nat) :
    slice text (lineBegin text offset) offset = lastLine (takeBytes offset text) := by
  have hsplit : untilLine (takeBytes offset text) ++
      (lastLine (takeBytes offset text) ++ dropBytes offset text) = text := by
    rw [← List.append_assoc, untilLine_append_lastLine, takeBytes_append_dropBytes]
  have hslice := append_slice (lineBegin_le text offset)
    (lastLine (takeBytes offset text) ++ dropBytes offset text)
  rw [hsplit, ← lineBegin] at hslice
  exact List.append_cancel_left (hslice.trans (untilLine_append_lastLine _).symm)

theorem slice_lineBegin (a b : Text) :
    slice (a ++ b) (lineBegin (a ++ b) a.width) a.width = lastLine a := by
  rw [slice_lineBegin_eq, takeBytes_width_append]

theorem slice_lineEnd (a b : Text) :
    slice (a ++ b) a.width (lineEnd (a ++ b) a.width) = restOfLine b := by
  have hslice := slice_append a (restOfLine b) (b.dropWhile (· ≠ '\n'))
  rwa [List.append_assoc, restOfLine, List.takeWhile_append_dropWhile, ← restOfLine,
    ← lineEnd_append] at hslice

theorem column_lineBegin (a b : Text) :
    a.width - lineBegin (a ++ b) a.width = (lastLine a).width := by
  rw [lineBegin_append, ← width_untilLine_add_lastLine a]
  exact Nat.add_sub_cancel_left ..

theorem lineBegins (text : Text) (offset : Nat) :
    LineBegins text (lineBegin text offset) offset where
  le := lineBegin_le text offset
  same_line := by
    rw [slice_lineBegin_eq]
    exact newline_notMem_lastLine _
  behind_newline := by
    by_cases h : '\n' ∈ takeBytes offset text
    · right
      have hslice := slice_append (beforeLastLine (takeBytes offset text)) ['\n']
        (lastLine (takeBytes offset text) ++ dropBytes offset text)
      rw [← untilLine_of_mem h, ← List.append_assoc, untilLine_append_lastLine,
        takeBytes_append_dropBytes] at hslice
      have hbefore : lineBegin text offset - 1 =
          (beforeLastLine (takeBytes offset text)).width := by
        rw [lineBegin, untilLine_of_mem h, width_append]
        rfl
      rwa [hbefore]
    · left
      rw [lineBegin, untilLine_of_notMem h]
      rfl

theorem lineEnds_append (a b : Text) :
    LineEnds (a ++ b) (lineEnd (a ++ b) a.width) a.width where
  le := Nat.le_add_right ..
  same_line := by
    rw [slice_lineEnd]
    exact newline_notMem_restOfLine b
  at_newline := by
    rw [lineEnd_append]
    by_cases h : '\n' ∈ b
    · right
      obtain ⟨line, rest, rfl, hline⟩ := List.eq_append_cons_of_mem h
      have hslice := slice_append (a ++ line) ['\n'] rest
      have hnext : (a ++ line ++ ['\n']).width = (a ++ line).width + 1 := by
        rw [width_append]
        rfl
      rw [restOfLine_append_cons hline]
      rwa [hnext, List.append_assoc, List.append_assoc, List.singleton_append] at hslice
    · left
      rw [restOfLine_of_notMem h]

/-- A run is cut before its last line where that begins, and there is nothing left where the line
begins no later than the run. -/
theorem slice_beforeLastLine (a b c : Text) :
    slice (a ++ b ++ c) a.width (max ((a ++ b).untilLine.width - 1) a.width) =
      beforeLastLine b := by
  by_cases h : '\n' ∈ b
  · have hstop : (a ++ b).untilLine.width - 1 = (a ++ beforeLastLine b).width := by
      rw [untilLine_append_of_mem a h, untilLine_of_mem h, ← List.append_assoc,
        width_append _ ['\n']]
      rfl
    have hslice := slice_append a (beforeLastLine b) (['\n'] ++ lastLine b ++ c)
    have hsplit : beforeLastLine b ++ (['\n'] ++ lastLine b ++ c) = b ++ c := by
      rw [← List.append_assoc, ← List.append_assoc, ← untilLine_of_mem h, untilLine_append_lastLine]
    rw [List.append_assoc, hsplit, ← List.append_assoc] at hslice
    rw [hstop, Nat.max_eq_left (width_le_append ..), hslice]
  · have hstop : (a ++ b).untilLine.width - 1 ≤ a.width := by
      rw [untilLine_append_of_notMem a h, ← width_untilLine_add_lastLine a]
      omega
    have hslice := slice_append a [] (b ++ c)
    rw [List.append_nil, ← List.append_assoc] at hslice
    rw [Nat.max_eq_right hstop, hslice, beforeLastLine_of_notMem h]

/-- An end of line that was found before is the end of every line that is still open there. -/
theorem lineEnd_eq_of_le (h : (a ++ b).width ≤ lineEnd (a ++ b ++ c) a.width) :
    lineEnd (a ++ b ++ c) (a ++ b).width = lineEnd (a ++ b ++ c) a.width := by
  rw [lineEnd_append (a ++ b) c]
  rw [List.append_assoc a b c, lineEnd_append a (b ++ c)] at h ⊢
  by_cases hb : '\n' ∈ b
  · obtain ⟨line, rest, rfl, hline⟩ := List.eq_append_cons_of_mem hb
    rw [List.append_assoc, List.cons_append, restOfLine_append_cons hline] at h
    have hsize := Char.utf8Size_pos '\n'
    simp only [width_append, width_cons] at h
    omega
  · rw [restOfLine_append_of_notMem hb, List.append_assoc]

end TaggedText.Text
