import TaggedText.Proofs.Grammar.Canonical
import TaggedText.Proofs.Interpolation

/-!
# Paths read back by both of their readers

A path may be read as the value of an attribute and as a placeholder in a string. The two readers do
not know the same paths: the one for attributes has strings in brackets and blanks around them, the
one for placeholders has names in any script and indices of any size. What they share are
identifiers and indices that are not too large. A reference to such a path is written as a text that
both of them read as that path.
-/
namespace TaggedText

open Grammar (IsIdentifier)

namespace PathSegment

/-- A step that both readers know. -/
inductive IsShared : PathSegment → Prop
  | key {name : String} : IsIdentifier name.toList → IsShared (.key name)
  | index {n : Nat} : n < 2 ^ 64 → IsShared (.index n)

/-- A path that both readers know. It begins with an identifier. -/
inductive IsSharedPath : List PathSegment → Prop
  | name {name : String} {steps : List PathSegment} : IsIdentifier name.toList →
      (∀ s ∈ steps, s.IsShared) → IsSharedPath (.key name :: steps)

variable {segment : PathSegment} {steps path : List PathSegment}

theorem IsShared.bounded_eq (h : segment.IsShared) : segment.bounded = segment := by
  cases h with
  | key _ => rfl
  | index hn => exact congrArg PathSegment.index (if_pos hn)

theorem map_bounded (h : ∀ s ∈ steps, s.IsShared) : steps.map bounded = steps := by
  have hsteps : ∀ s ∈ steps, s.bounded = id s := fun s hs => (h s hs).bounded_eq
  simp [List.map_congr_left hsteps]

theorem IsSharedPath.map_bounded (h : IsSharedPath path) : path.map bounded = path := by
  cases h with
  | name _ hsteps => rw [List.map_cons, PathSegment.map_bounded hsteps, bounded]

theorem writtenPath_toText (h : ∀ s ∈ steps, s.IsShared) :
    Grammar.WrittenPath steps (steps.flatMap toText) := by
  induction steps with
  | nil => exact .nil
  | cons s steps ih =>
      obtain ⟨hs, hsteps⟩ := List.forall_mem_cons.mp h
      cases hs with
      | key hname => exact .dot hname (ih hsteps)
      | index hn =>
          simpa [toText] using Grammar.WrittenPath.index hn (ih hsteps)

end PathSegment

namespace Placeholder

theorem isNameStart_of_isIdentifierStart {c : Char} (h : Grammar.isIdentifierStart c) :
    isNameStart c := by
  simp only [Grammar.isIdentifierStart, Bool.or_eq_true] at h
  rcases h with h | h
  · simp [isNameStart, Text.isAlphabetic_of_isAlpha h]
  · simp [isNameStart, of_decide_eq_true h]

theorem isNameChar_of_isIdentifierChar {c : Char} (h : Grammar.isIdentifierChar c) :
    isNameChar c := by
  simp only [Grammar.isIdentifierChar, Char.isAlphanum, Bool.or_eq_true, decide_eq_true_eq] at h
  rcases h with ((h | h) | h) | h
  · simp [isNameChar, Text.isAlphabetic_of_isAlpha h]
  · simp [isNameChar, Text.isNumeric_of_isDigit h]
  · simp [isNameChar, h]
  · simp [isNameChar, h]

/-- An identifier is a name in any script. -/
theorem isName_of_isIdentifier {name : Text} (h : IsIdentifier name) : IsName name := by
  match name with
  | [] => exact h
  | c :: cs =>
      have ⟨hc, hcs⟩ := Grammar.isIdentifier_cons_iff.mp h
      exact ⟨isNameStart_of_isIdentifierStart hc, fun d hd =>
        isNameChar_of_isIdentifierChar (hcs d hd)⟩

variable {steps : List PathSegment}

theorem areSteps_toText (h : ∀ s ∈ steps, s.IsShared) :
    AreSteps (steps.flatMap PathSegment.toText) steps := by
  induction steps with
  | nil => exact .nil
  | cons s steps ih =>
      obtain ⟨hs, hsteps⟩ := List.forall_mem_cons.mp h
      cases hs with
      | @key name hname =>
          have hdot := AreSteps.dot (isName_of_isIdentifier hname) (ih hsteps)
          rwa [String.ofList_toList] at hdot
      | @index n hn =>
          have hdigits : Grammar.Digits (Nat.toDigits 10 n) := fun c hc =>
            Nat.isDigit_of_mem_toDigits (by decide) (by decide) hc
          have hbracket := AreSteps.bracket Nat.toDigits_ne_nil hdigits (ih hsteps)
          have hvalue : Decimal.ofDigits (Nat.toDigits 10 n) = n := Nat.ofDigitChars_ten_toDigits
          rwa [hvalue] at hbracket

theorem isPath_pathText {path : List PathSegment} (h : PathSegment.IsSharedPath path) :
    IsPath (PathSegment.pathText path) path := by
  cases h with
  | name hname hsteps =>
      have hpath := IsPath.name (isName_of_isIdentifier hname) (areSteps_toText hsteps)
      rwa [String.ofList_toList] at hpath

end Placeholder

/-- A placeholder at the head of a text is its first piece. -/
theorem Piece.split_written {m : Mention} (h : m.Written) (rest : Text) :
    split false (m.source ++ rest) = .hole m.placeholder :: split false rest := by
  obtain ⟨text, htext⟩ : ∃ text, m.source ++ rest = Mention.opening ++ text := by
    cases h with
    | braces => simp [Mention.opening]
  have hread := Placeholder.behindBraces?_of_written h htext.symm
  rw [htext, Mention.opening, List.cons_append, List.singleton_append, split,
    if_neg Bool.false_ne_true]
  split
  next hsome =>
    rw [hread] at hsome
    cases hsome
    rfl
  next hnone =>
    rw [hread] at hnone
    cases hnone

namespace Value

open PathSegment (IsSharedPath pathText)

/-- A value as it is written between double braces. -/
def braced (v : Value) : Text :=
  "\x7b\x7b ".toList ++ v.toText ++ " \x7d\x7d".toList

variable {path : List PathSegment}

theorem written_reference (h : IsSharedPath path) :
    Grammar.Written (reference path) (reference path).toText := by
  cases h with
  | name hname hsteps =>
      rw [toText, pathText]
      exact .reference hname (PathSegment.writtenPath_toText hsteps)

/-- Behind the name of an attribute the built-in grammar reads a value that is written for it. -/
theorem standard_attribute {v : Value} {text : Text} (h : Grammar.Written v text) :
    Grammar.standard ("t k=".toList ++ text) = .ok (.opening "t" [⟨"k", .plain, v⟩]) := by
  have hattribute : Grammar.WrittenAttribute ⟨"k", .plain, v⟩ ("k".toList ++ '=' :: text) :=
    .plain (by decide) h
  have hspaced := Grammar.areSpaced_of_written (.cons hattribute .nil)
  have htag : IsIdentifier "t".toList := by decide
  have hread := Grammar.descriptor_named htag .nil hspaced Grammar.endsBody_nil
  have hend : Grammar.expectEnd [] = .ok () := rfl
  apply Grammar.standard_eq_ok_iff.mpr
  simpa [hend, Text.skipBlanks, Except.map] using hread

theorem ofText_braced (h : IsSharedPath path) :
    Piece.ofText (reference path).braced =
      [.hole ⟨(reference path).braced, pathText path, path⟩] := by
  have hwritten : Mention.Written ⟨(reference path).braced, pathText path, path⟩ := by
    have hbraces := Mention.Written.braces Grammar.blanks_singleton
      (Placeholder.isPath_pathText h) Grammar.blanks_singleton
    simpa [braced, toText, Mention.opening, Mention.closing] using hbraces
  have hsplit := Piece.split_written hwritten []
  rwa [List.append_nil, Mention.placeholder, h.map_bounded, Piece.split] at hsplit

theorem text_braced (h : IsSharedPath path) {bindings : Bindings} (hne : bindings ≠ []) :
    Interpolation.text (some bindings) (reference path).braced =
      match bindings.lookup? path with
      | some v => (v.toText, [])
      | none => ((reference path).braced, [String.ofList (pathText path)]) := by
  have heffective : Interpolation.effective? (some bindings) = some bindings := by
    simp [Interpolation.effective?, hne]
  rw [Interpolation.text, heffective, ofText_braced h]
  cases hfound : bindings.lookup? path with
  | some v => simp [Interpolation.pieceText, Interpolation.unresolvedPath?, hfound]
  | none => simp [Interpolation.pieceText, Interpolation.unresolvedPath?, hfound]

/-- Both readers recover a path from the text of a reference to it. The built-in grammar reads the
text as the value of an attribute, and between braces it is one placeholder, which gives way to the
value at the end of the path or stays where the path leads nowhere. -/
theorem reference_recovered (path : List PathSegment) (h : IsSharedPath path) :
    (reference path).toText = '$' :: pathText path ∧
      Grammar.standard ("t k=".toList ++ (reference path).toText) =
        .ok (.opening "t" [⟨"k", .plain, .reference path⟩]) ∧
      Piece.ofText (reference path).braced =
        [.hole ⟨(reference path).braced, pathText path, path⟩] ∧
      ∀ bindings : Bindings, bindings ≠ [] →
        (∀ v, bindings.Leads path v →
          Interpolation.text (some bindings) (reference path).braced = (v.toText, [])) ∧
        ((∀ v, ¬ bindings.Leads path v) →
          Interpolation.text (some bindings) (reference path).braced =
            ((reference path).braced, [String.ofList (pathText path)])) := by
  refine ⟨by rw [toText], standard_attribute (written_reference h), ofText_braced h, ?_⟩
  intro bindings hne
  constructor
  · intro v hleads
    rw [text_braced h hne, Bindings.leads_iff_lookup?.mp hleads]
  · intro hlost
    have hnone : bindings.lookup? path = none :=
      Option.eq_none_iff_forall_ne_some.mpr fun v hv => hlost v (Bindings.leads_iff_lookup?.mpr hv)
    rw [text_braced h hne, hnone]

/-- A path that leads to a value among some bindings and nowhere among others. -/
theorem reference_recovered_name :
    IsSharedPath [.key "user", .index 1, .key "first-name"] ∧
      Grammar.standard "t k=$user[1].first-name".toList =
        .ok (.opening "t" [⟨"k", .plain, .reference [.key "user", .index 1, .key "first-name"]⟩]) ∧
      Interpolation.text
          (some [("user", .array [.null, .map [("first-name", .string "Ada")]])])
          "\x7b\x7b $user[1].first-name \x7d\x7d".toList = ("Ada".toList, []) ∧
      Interpolation.text (some [("user", .array [.null])])
          "\x7b\x7b $user[1].first-name \x7d\x7d".toList =
        ("\x7b\x7b $user[1].first-name \x7d\x7d".toList, ["user[1].first-name"]) := by
  have hpath : IsSharedPath [.key "user", .index 1, .key "first-name"] := by
    refine .name (by decide) ?_
    simp only [List.forall_mem_cons, List.not_mem_nil, false_implies, implies_true, and_true]
    exact ⟨.index (by decide), .key (by decide)⟩
  have ⟨_, hread, _, hfill⟩ := reference_recovered _ hpath
  have ⟨hfound, _⟩ := hfill [("user", .array [.null, .map [("first-name", .string "Ada")]])]
    (by simp)
  have ⟨_, hlost⟩ := hfill [("user", .array [.null])] (by simp)
  have hname : Bindings.Leads [("user", .array [.null, .map [("first-name", .string "Ada")]])]
      [.key "user", .index 1, .key "first-name"] (.string "Ada") :=
    .name rfl (.index rfl (.key rfl .here))
  refine ⟨hpath, hread, hfound _ hname, hlost fun v hleads => ?_⟩
  have hlookup := Bindings.leads_iff_lookup?.mp hleads
  cases hlookup

end Value

end TaggedText
