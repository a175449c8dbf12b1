import TaggedText.Text.Alphabetic
import TaggedText.Text.Numeric
import TaggedText.Value

/-!
# Placeholders in a string

A placeholder is a path behind a dollar sign between double braces, with blanks allowed
around it. Its path is the longest that can be read: a step that is not complete does not
belong to it, and then the closing braces are missing.

A string falls into pieces that depend on the string alone. Double braces right behind a
backslash are kept as they are, both characters of them. Where double braces begin no
placeholder, only the first brace is passed over, so a placeholder may begin at the second.
-/
namespace TaggedText

/-- A path between braces. -/
structure Placeholder where
  /-- The placeholder as written, braces included. -/
  source : Text
  /-- The path as written, without the dollar sign. -/
  path : Text
  segments : List PathSegment
  deriving DecidableEq, Repr

namespace Placeholder

def isNameStart (c : Char) : Bool :=
  Text.isAlphabetic c || c = '_'

def isNameChar (c : Char) : Bool :=
  Text.isAlphabetic c || Text.isNumeric c || c = '_' || c = '-'

/-- The name at the head of a text. -/
def name? : Text → Option (Text × Text)
  | [] => none
  | c :: cs =>
      if isNameStart c then some (c :: cs.takeWhile isNameChar, cs.dropWhile isNameChar)
      else none

/-- The digits of an index behind its opening bracket; what is left stands behind the closing
one. -/
def bracketIndex? (text : Text) : Option (Text × Text) :=
  let digits := text.takeWhile Char.isDigit
  match text.dropWhile Char.isDigit with
  | ']' :: rest => if digits.isEmpty then none else some (digits, rest)
  | _ => none

/-- The index that digits stand for. An index past the limit counts as the greatest one, which is
in no array. -/
def indexOf (digits : Text) : Nat :=
  (index? digits).getD (indexLimit - 1)

/-- A step of a path that does not begin it: what it means, how it is written, what is left. -/
def segment? : Text → Option (PathSegment × Text × Text)
  | '.' :: cs => (name? cs).map fun r => (.key (String.ofList r.1), '.' :: r.1, r.2)
  | '[' :: cs =>
      (bracketIndex? cs).map fun r =>
        (.index (indexOf r.1), '[' :: (r.1 ++ [']']), r.2)
  | _ => none

theorem length_dropWhile_le (p : Char → Bool) (text : Text) :
    (text.dropWhile p).length ≤ text.length :=
  (List.dropWhile_sublist p).length_le

theorem length_lt_of_name? {text name rest : Text}
    (h : name? text = some (name, rest)) : rest.length < text.length := by
  unfold name? at h
  split at h
  · cases h
  · next c cs =>
      split at h
      · obtain ⟨_, rfl⟩ := Prod.mk.inj (Option.some.inj h)
        have := length_dropWhile_le isNameChar cs
        simp only [List.length_cons]
        omega
      · cases h

theorem length_lt_of_bracketIndex? {text digits rest : Text}
    (h : bracketIndex? text = some (digits, rest)) : rest.length < text.length := by
  have hd := length_dropWhile_le Char.isDigit text
  simp only [bracketIndex?] at h
  split at h
  · next tail ht =>
      rw [ht] at hd
      split at h
      · cases h
      · obtain ⟨_, rfl⟩ := Prod.mk.inj (Option.some.inj h)
        exact hd
  · cases h

theorem length_lt_of_segment? {text written rest : Text} {s : PathSegment}
    (h : segment? text = some (s, written, rest)) : rest.length < text.length := by
  unfold segment? at h
  split at h
  · next cs =>
      obtain ⟨⟨n, r⟩, hn, he⟩ := Option.map_eq_some_iff.1 h
      cases he
      exact Nat.lt_succ_of_lt (length_lt_of_name? hn)
  · next cs =>
      obtain ⟨⟨n, r⟩, hn, he⟩ := Option.map_eq_some_iff.1 h
      cases he
      exact Nat.lt_succ_of_lt (length_lt_of_bracketIndex? hn)
  · cases h

/-- As many further steps as there are, how they are written, and what is left. -/
def moreSegments (text : Text) : List PathSegment × Text × Text :=
  match _h : segment? text with
  | some (s, written, rest) =>
      let r := moreSegments rest
      (s :: r.1, written ++ r.2.1, r.2.2)
  | none => ([], [], text)
termination_by text.length
decreasing_by exact length_lt_of_segment? _h

theorem length_moreSegments_le (text : Text) :
    (moreSegments text).2.2.length ≤ text.length := by
  fun_induction moreSegments text with
  | case1 text s written rest hs r ih =>
      exact Nat.le_trans ih (Nat.le_of_lt (length_lt_of_segment? hs))
  | case2 => exact Nat.le_refl _

/-- The longest path at the head of a text, how it is written, and what is left. -/
def path? (text : Text) : Option (List PathSegment × Text × Text) :=
  (name? text).map fun first =>
    let r := moreSegments first.2
    (.key (String.ofList first.1) :: r.1, first.1 ++ r.2.1, r.2.2)

/-- The placeholder whose opening braces stand right before the text, and what follows it. -/
def behindBraces? (text : Text) : Option (Placeholder × Text) :=
  match text.skipBlanks with
  | '$' :: cs =>
      match path? cs with
      | some (segments, path, rest) =>
          match rest.skipBlanks with
          | '}' :: '}' :: tail =>
              let source := ['\x7b', '\x7b'] ++ text.takeWhile Text.isBlank ++ '$' :: path
                ++ rest.takeWhile Text.isBlank ++ ['}', '}']
              some (⟨source, path, segments⟩, tail)
          | _ => none
      | none => none
  | _ => none

theorem length_lt_of_path? {text path rest : Text} {segments : List PathSegment}
    (h : path? text = some (segments, path, rest)) : rest.length < text.length := by
  obtain ⟨⟨n, r⟩, hn, he⟩ := Option.map_eq_some_iff.1 h
  cases he
  exact Nat.lt_of_le_of_lt (length_moreSegments_le r) (length_lt_of_name? hn)

theorem length_lt_of_behindBraces? {text rest : Text} {p : Placeholder}
    (h : behindBraces? text = some (p, rest)) : rest.length < text.length := by
  have hb := Text.length_skipBlanks_le text
  unfold behindBraces? at h
  split at h
  · next cs hs =>
      rw [hs] at hb
      split at h
      · next segments path after hp =>
          have hl := length_lt_of_path? hp
          have ht := Text.length_skipBlanks_le after
          split at h
          · next tail hr =>
              obtain ⟨_, rfl⟩ := Prod.mk.inj (Option.some.inj h)
              rw [hr] at ht
              simp only [List.length_cons] at hb ht
              omega
          · cases h
      · cases h
  · cases h

end Placeholder

/-- A part of a string: a character that stays, or a placeholder. -/
inductive Piece where
  | char (c : Char)
  | hole (placeholder : Placeholder)
  deriving DecidableEq, Repr

namespace Piece

/-- The pieces of a text; `escaped` tells whether a backslash stands right before it. -/
def split (escaped : Bool) : Text → List Piece
  | [] => []
  | '\x7b' :: '\x7b' :: cs =>
      if escaped then char '\x7b' :: char '\x7b' :: split false cs
      else
        match _h : Placeholder.behindBraces? cs with
        | some (p, rest) => hole p :: split false rest
        | none => char '\x7b' :: split false ('\x7b' :: cs)
  | c :: cs => char c :: split (c == '\\') cs
termination_by text => text.length
decreasing_by
  · simp only [List.length_cons]; omega
  · have := Placeholder.length_lt_of_behindBraces? _h
    simp only [List.length_cons]
    omega
  · simp
  · simp

/-- The pieces of a whole text. -/
def ofText (text : Text) : List Piece :=
  split false text

/-- A piece as written. -/
def source : Piece → Text
  | char c => [c]
  | hole p => p.source

end Piece

end TaggedText
