import TaggedText.Placeholder
import TaggedText.Proofs.Grammar.Words

/-!
# The language of placeholders

The placeholders as texts with their meaning, told apart from any way to read them. The steps of a
path are exact: digits in brackets, however many, stand for their number.

The reader behind double braces finds a placeholder exactly where one stands, and it can be but one.
What it keeps of an index that is past the limit is the greatest index.
-/
namespace TaggedText

open Grammar (Blanks Digits Ends)

namespace PathSegment

/-- A step as far as an index can go. -/
def bounded : PathSegment → PathSegment
  | key name => .key name
  | index n => .index (if n < indexLimit then n else indexLimit - 1)

end PathSegment

namespace Placeholder

/-- A letter or an underscore, then letters, digits, underscores and hyphens, in any script. -/
def IsName : Text → Prop
  | [] => False
  | c :: cs => isNameStart c ∧ ∀ d ∈ cs, isNameChar d

/-- Steps behind the first name of a path. -/
inductive AreSteps : Text → List PathSegment → Prop
  | nil : AreSteps [] []
  | dot {name text : Text} {steps : List PathSegment} : IsName name → AreSteps text steps →
      AreSteps ('.' :: name ++ text) (.key (String.ofList name) :: steps)
  | bracket {digits text : Text} {steps : List PathSegment} : digits ≠ [] → Digits digits →
      AreSteps text steps →
      AreSteps ('[' :: (digits ++ [']']) ++ text) (.index (Decimal.ofDigits digits) :: steps)

/-- A path without its dollar sign. -/
inductive IsPath : Text → List PathSegment → Prop
  | name {name text : Text} {steps : List PathSegment} : IsName name → AreSteps text steps →
      IsPath (name ++ text) (.key (String.ofList name) :: steps)

end Placeholder

/-- A placeholder in a text, with the exact steps of its path. -/
structure Mention where
  /-- As written, braces included. -/
  source : Text
  /-- The path as written, without the dollar sign. -/
  path : Text
  steps : List PathSegment

namespace Mention

/-- The braces that open a placeholder. -/
def opening : Text :=
  ['\x7b', '\x7b']

/-- The braces that close a placeholder. -/
def closing : Text :=
  ['\x7d', '\x7d']

/-- What is between the braces: the path behind a dollar sign, with blanks around. -/
inductive Written : Mention → Prop
  | braces {before path after : Text} {steps : List PathSegment} : Blanks before →
      Placeholder.IsPath path steps → Blanks after →
      Written ⟨opening ++ before ++ '$' :: path ++ after ++ closing, path, steps⟩

theorem Written.exists_last {m : Mention} (h : m.Written) :
    ∃ most, m.source = most ++ ['\x7d'] ++ ['\x7d'] := by
  cases h with
  | braces => exact ⟨_, (List.append_assoc _ ['\x7d'] ['\x7d']).symm⟩

/-- The placeholder as it is kept. -/
def placeholder (m : Mention) : Placeholder :=
  ⟨m.source, m.path, m.steps.map PathSegment.bounded⟩

end Mention

namespace Placeholder

variable {text rest name digits path : Text} {c : Char}

/-- The blanks one by one. -/
def blankCodes : List Nat :=
  [0x09, 0x0A, 0x0B, 0x0C, 0x0D, 0x20, 0x85, 0xA0, 0x1680, 0x2000, 0x2001, 0x2002, 0x2003, 0x2004,
    0x2005, 0x2006, 0x2007, 0x2008, 0x2009, 0x200A, 0x2028, 0x2029, 0x202F, 0x205F, 0x3000]

theorem mem_blankCodes (h : Text.isBlank c) : c.toNat ∈ blankCodes := by
  simp only [Text.isBlank, Bool.or_eq_true, Bool.and_eq_true, decide_eq_true_eq, beq_iff_eq] at h
  simp only [blankCodes, List.mem_cons, List.not_mem_nil, or_false]
  omega

theorem not_covers_blankCodes : ∀ n ∈ blankCodes,
    Text.CodeRange.covers Text.alphabeticRanges n = false ∧
      Text.CodeRange.covers Text.numericRanges n = false := by
  decide +kernel

theorem not_isNameChar_of_isBlank (h : Text.isBlank c) : ¬ isNameChar c := by
  have hcode := mem_blankCodes h
  obtain ⟨hletter, hdigit⟩ := not_covers_blankCodes _ hcode
  have hunderscore : c ≠ '_' := by
    rintro rfl
    revert hcode
    decide
  have hhyphen : c ≠ '-' := by
    rintro rfl
    revert hcode
    decide
  simp [isNameChar, Text.isAlphabetic, Text.isNumeric, hletter, hdigit, hunderscore, hhyphen]

theorem not_isNameChar_of_ends (h : Ends c) : ¬ isNameChar c := by
  rcases h with h | rfl | rfl | rfl | rfl
  · exact not_isNameChar_of_isBlank h
  all_goals decide

theorem isName_of_name? (h : name? text = some (name, rest)) :
    IsName name ∧ text = name ++ rest := by
  unfold name? at h
  split at h
  · cases h
  next c cs =>
    split at h
    next hstart =>
      cases h
      refine ⟨⟨hstart, fun d hd => ?_⟩, ?_⟩
      · exact List.mem_takeWhile_imp hd
      · rw [List.cons_append, List.takeWhile_append_dropWhile]
    next => cases h

theorem digits_of_bracketIndex? (h : bracketIndex? text = some (digits, rest)) :
    digits ≠ [] ∧ Digits digits ∧ text = digits ++ ']' :: rest := by
  have htext := List.takeWhile_append_dropWhile (p := Char.isDigit) (l := text)
  simp only [bracketIndex?] at h
  split at h
  next tail htail =>
    split at h
    next => cases h
    next hne =>
      cases h
      refine ⟨fun heq => hne (List.isEmpty_iff.mpr heq), fun d hd => List.mem_takeWhile_imp hd, ?_⟩
      rw [← htail, htext]
  next => cases h

theorem indexOf_eq (hne : digits ≠ []) (hdigits : Digits digits) :
    PathSegment.index (indexOf digits) = (PathSegment.index (Decimal.ofDigits digits)).bounded := by
  rw [PathSegment.bounded, indexOf, index?]
  by_cases hlt : Decimal.ofDigits digits < indexLimit
  · rw [if_pos ⟨hne, List.all_eq_true.mpr hdigits, hlt⟩, if_pos hlt, Option.getD_some]
  · rw [if_neg fun h => hlt h.2.2, if_neg hlt, Option.getD_none]

/-- A step that is read is one step of a path. -/
theorem areSteps_of_segment? {segment : PathSegment} {written more : Text}
    {steps : List PathSegment} (h : segment? text = some (segment, written, rest))
    (hmore : AreSteps more steps) :
    text = written ++ rest ∧ ∃ step, segment = step.bounded ∧
      AreSteps (written ++ more) (step :: steps) := by
  unfold segment? at h
  split at h
  next cs =>
    obtain ⟨⟨name, tail⟩, hname, heq⟩ := Option.map_eq_some_iff.mp h
    cases heq
    obtain ⟨hisName, rfl⟩ := isName_of_name? hname
    exact ⟨rfl, _, rfl, .dot hisName hmore⟩
  next cs =>
    obtain ⟨⟨digits, tail⟩, hindex, heq⟩ := Option.map_eq_some_iff.mp h
    cases heq
    obtain ⟨hne, hdigits, rfl⟩ := digits_of_bracketIndex? hindex
    exact ⟨by simp, _, indexOf_eq hne hdigits, .bracket hne hdigits hmore⟩
  next => cases h

theorem areSteps_of_moreSegments (text : Text) :
    text = (moreSegments text).2.1 ++ (moreSegments text).2.2 ∧
      ∃ steps, (moreSegments text).1 = steps.map PathSegment.bounded ∧
        AreSteps (moreSegments text).2.1 steps := by
  fun_induction moreSegments text with
  | case1 text segment written rest hsegment r ih =>
      obtain ⟨hrest, steps, hsteps, hare⟩ := ih
      obtain ⟨htext, step, rfl, hcons⟩ := areSteps_of_segment? hsegment hare
      refine ⟨?_, step :: steps, ?_, hcons⟩
      · rw [List.append_assoc, ← hrest, htext]
      · rw [List.map_cons, ← hsteps]
  | case2 text hnone => exact ⟨rfl, [], rfl, .nil⟩

theorem isPath_of_path? {segments : List PathSegment}
    (h : path? text = some (segments, path, rest)) :
    text = path ++ rest ∧
      ∃ steps, segments = steps.map PathSegment.bounded ∧ IsPath path steps := by
  obtain ⟨⟨first, more⟩, hfirst, heq⟩ := Option.map_eq_some_iff.mp h
  cases heq
  obtain ⟨hname, rfl⟩ := isName_of_name? hfirst
  obtain ⟨hmore, steps, hsteps, hare⟩ := areSteps_of_moreSegments more
  refine ⟨?_, .key (String.ofList first) :: steps, ?_, .name hname hare⟩
  · rw [List.append_assoc, ← hmore]
  · rw [List.map_cons, hsteps]
    rfl

theorem written_of_behindBraces? {p : Placeholder} (h : behindBraces? text = some (p, rest)) :
    ∃ m : Mention, m.Written ∧ p = m.placeholder ∧ Mention.opening ++ text = m.source ++ rest := by
  have htext := List.takeWhile_append_dropWhile (p := Text.isBlank) (l := text)
  unfold behindBraces? at h
  split at h
  next cs hcs =>
    split at h
    next segments path after hpath =>
      obtain ⟨rfl, steps, rfl, hisPath⟩ := isPath_of_path? hpath
      have hafter := List.takeWhile_append_dropWhile (p := Text.isBlank) (l := after)
      split at h
      next tail htail =>
        cases h
        have hblanks : ∀ t : Text, Blanks (t.takeWhile Text.isBlank) := fun t c hc =>
          List.mem_takeWhile_imp hc
        refine ⟨_, .braces (hblanks text) hisPath (hblanks after), rfl, ?_⟩
        rw [show text.dropWhile Text.isBlank = '$' :: (path ++ after) from hcs] at htext
        rw [show after.dropWhile Text.isBlank = '\x7d' :: '\x7d' :: rest from htail] at hafter
        calc Mention.opening ++ text
            = Mention.opening ++ (text.takeWhile Text.isBlank ++ '$' :: (path ++
                (after.takeWhile Text.isBlank ++ '\x7d' :: '\x7d' :: rest))) := by
              rw [hafter, htext]
          _ = _ := by
              simp [Mention.closing]
      next => cases h
    next => cases h
  next => cases h

theorem name?_append (hname : IsName name) (hrest : ∀ c ∈ rest.head?, ¬ isNameChar c) :
    name? (name ++ rest) = some (name, rest) := by
  match name with
  | [] => exact hname.elim
  | c :: cs =>
      have ⟨htake, hdrop⟩ := Grammar.span_append hname.2 hrest
      rw [List.cons_append, name?, if_pos hname.1, htake, hdrop]

theorem bracketIndex?_append (hne : digits ≠ []) (hdigits : Digits digits) :
    bracketIndex? (digits ++ ']' :: rest) = some (digits, rest) := by
  have hstop : ∀ c ∈ (']' :: rest).head?, ¬ c.isDigit := by
    intro c hc
    cases hc
    decide
  have ⟨htake, hdrop⟩ := Grammar.span_append hdigits hstop
  simp only [bracketIndex?, htake, hdrop, List.isEmpty_iff, hne, if_false]

/-- No step begins where a path may end. -/
theorem segment?_of_ends (h : ∀ c ∈ rest.head?, Ends c) : segment? rest = none := by
  unfold segment?
  split
  next => exact absurd rfl (h '.' rfl).ne.1
  next => exact absurd rfl (h '[' rfl).ne.2
  next => rfl

/-- What stands behind a name in a path is no part of the name. -/
theorem AreSteps.not_isNameChar_head {steps : List PathSegment} (h : AreSteps text steps)
    (hrest : ∀ c ∈ rest.head?, Ends c) : ∀ c ∈ (text ++ rest).head?, ¬ isNameChar c := by
  intro c hc
  cases h with
  | nil => exact not_isNameChar_of_ends (hrest c hc)
  | dot _ _ =>
      cases hc
      decide
  | bracket _ _ _ =>
      cases hc
      decide

theorem moreSegments_append {steps : List PathSegment} (h : AreSteps text steps)
    (hrest : ∀ c ∈ rest.head?, Ends c) :
    moreSegments (text ++ rest) = (steps.map PathSegment.bounded, text, rest) := by
  induction h with
  | nil =>
      have hnone : segment? rest = none := segment?_of_ends hrest
      rw [List.nil_append, moreSegments]
      split
      next hsome => rw [hnone] at hsome; cases hsome
      next => rfl
  | @dot name text steps hname hsteps ih =>
      have hread : segment? ('.' :: (name ++ (text ++ rest))) =
          some (.key (String.ofList name), '.' :: name, text ++ rest) := by
        rw [segment?, name?_append hname (hsteps.not_isNameChar_head hrest)]
        rfl
      have hassoc : '.' :: name ++ text ++ rest = '.' :: (name ++ (text ++ rest)) := by
        simp
      rw [hassoc, moreSegments]
      split
      next hsome =>
        rw [hread] at hsome
        cases hsome
        rw [ih]
        rfl
      next hnone => rw [hread] at hnone; cases hnone
  | @bracket digits text steps hne hdigits hsteps ih =>
      have hread : segment? ('[' :: (digits ++ ']' :: (text ++ rest))) =
          some (.index (indexOf digits), '[' :: (digits ++ [']']), text ++ rest) := by
        rw [segment?, bracketIndex?_append hne hdigits]
        rfl
      have hassoc : '[' :: (digits ++ [']']) ++ text ++ rest =
          '[' :: (digits ++ ']' :: (text ++ rest)) := by
        simp
      rw [hassoc, moreSegments]
      split
      next hsome =>
        rw [hread] at hsome
        cases hsome
        rw [ih, indexOf_eq hne hdigits]
        rfl
      next hnone => rw [hread] at hnone; cases hnone

theorem path?_append {steps : List PathSegment} (h : IsPath path steps)
    (hrest : ∀ c ∈ rest.head?, Ends c) :
    path? (path ++ rest) = some (steps.map PathSegment.bounded, path, rest) := by
  cases h with
  | name hname hsteps =>
      rw [List.append_assoc, path?, name?_append hname (hsteps.not_isNameChar_head hrest),
        Option.map_some]
      dsimp only
      rw [moreSegments_append hsteps hrest]
      rfl

theorem behindBraces?_of_written {m : Mention} (h : m.Written)
    (htext : Mention.opening ++ text = m.source ++ rest) :
    behindBraces? text = some (m.placeholder, rest) := by
  cases h with
  | @braces before path after steps hbefore hpath hafter =>
      obtain rfl : text = before ++ '$' :: (path ++ (after ++ Mention.closing ++ rest)) := by
        simpa [Mention.opening] using htext
      have hdollar : ∀ c ∈ ('$' :: (path ++ (after ++ Mention.closing ++ rest))).head?,
          ¬ Text.isBlank c := by
        intro c hc
        cases hc
        decide
      have hbrace : ∀ c ∈ (Mention.closing ++ rest).head?, ¬ Text.isBlank c := by
        intro c hc
        cases hc
        decide
      have hends : ∀ c ∈ (after ++ Mention.closing ++ rest).head?, Ends c := by
        have hclosing : Ends '\x7d' := .inr (.inr (.inr (.inl rfl)))
        rw [List.append_assoc]
        exact Grammar.ends_head?_blanks_append hafter hclosing
      have ⟨htake, hdrop⟩ := Grammar.span_append hbefore hdollar
      have ⟨htake', hdrop'⟩ := Grammar.span_append hafter hbrace
      rw [← List.append_assoc] at htake' hdrop'
      have hclose : Mention.closing ++ rest = '\x7d' :: '\x7d' :: rest := rfl
      simp only [behindBraces?, Text.skipBlanks, htake, hdrop, path?_append hpath hends, htake',
        hdrop', hclose]
      rfl

end Placeholder

end TaggedText
