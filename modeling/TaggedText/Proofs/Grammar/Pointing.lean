import TaggedText.Proofs.Grammar.Soundness
import TaggedText.Proofs.Offsets

/-!
# What a syntax error points at

An error stands where its reader found what it could not use. Its place is a remainder of the body,
and so is what lies behind it: a character that was found is the first of that remainder, and a word
that was found fills all of it up to the place behind. One lemma for each reader says so, together
with the fact that what the reader leaves is a remainder of what it was given. As offsets into the
body the places are those of whole characters.
-/
namespace TaggedText

namespace SyntaxErrorKind

/-- The character that an error says was found, or that it found none. -/
def found? : SyntaxErrorKind → Option (Option Char)
  | expectedValue found => some found
  | expected _ found => some found
  | expectedIdentifier found => some found
  | trailingInput found => some (some found)
  | _ => none

/-- The word that an error says was found. -/
def word? : SyntaxErrorKind → Option String
  | unknownIdentifier name => some name
  | invalidNumber text => some text
  | _ => none

theorem found?_eq_none {kind : SyntaxErrorKind} {word : String} (h : kind.word? = some word) :
    kind.found? = none := by
  cases kind with
  | unknownIdentifier name => rfl
  | invalidNumber text => rfl
  | _ => cases h

end SyntaxErrorKind

/-- The error stands in the text, at what it says was found. -/
structure Fault.PointsInto (text : Text) (fault : Fault) : Prop where
  here_suffix : fault.here <:+ text
  past_suffix : fault.past <:+ fault.here
  found_eq : ∀ found, fault.kind.found? = some found → fault.here = found.toList ++ fault.past
  here_eq_nil : fault.kind.found? = some none → fault.here = []
  word_eq : ∀ word, fault.kind.word? = some word → fault.here = word.toList ++ fault.past

/-- The error takes up the character or the word that it says was found, and stands at the end of
the body if it says that nothing was. -/
structure SyntaxError.PointsInto (body : Text) (e : SyntaxError) : Prop where
  start_le : e.start ≤ e.stop
  stop_le : e.stop ≤ body.width
  start_boundary : body.IsBoundary e.start
  stop_boundary : body.IsBoundary e.stop
  head?_eq : ∀ found, e.kind.found? = some found → (body.dropBytes e.start).head? = found
  found_eq : ∀ found, e.kind.found? = some found → body.slice e.start e.stop = found.toList
  start_eq : e.kind.found? = some none → e.start = body.width
  word_eq : ∀ word, e.kind.word? = some word → body.slice e.start e.stop = word.toList

namespace Text

variable {text rest : Text}

theorem skipBlanks_suffix (text : Text) : text.skipBlanks <:+ text :=
  List.dropWhile_suffix _

theorem tail_skipBlanks_suffix (text : Text) : text.skipBlanks.tail <:+ text :=
  (List.tail_suffix _).trans (skipBlanks_suffix text)

end Text

theorem Fault.PointsInto.mono {text rest : Text} {fault : Fault} (h : fault.PointsInto rest)
    (hrest : rest <:+ text) : fault.PointsInto text :=
  { h with here_suffix := h.here_suffix.trans hrest }

namespace Grammar

/-- A reader of a text leaves a remainder of it, or an error that stands in it. -/
def Points {α : Type} (text : Text) (left : α → Text) : Except Fault α → Prop
  | .ok a => left a <:+ text
  | .error fault => fault.PointsInto text

variable {α β : Type} {text rest : Text} {name : String} {make : Constructors}

theorem Points.mono {left : α → Text} {x : Except Fault α} (h : Points rest left x)
    (hrest : rest <:+ text) : Points text left x := by
  cases x with
  | error fault => exact Fault.PointsInto.mono h hrest
  | ok a => exact List.IsSuffix.trans h hrest

theorem Points.bind {left : α → Text} {left' : β → Text} {x : Except Fault α}
    {f : α → Except Fault β} (hx : Points text left x) (hf : ∀ a, Points (left a) left' (f a)) :
    Points text left' (x >>= f) := by
  cases x with
  | error fault => exact hx
  | ok a => exact (hf a).mono hx

/-- The error is about the next character, if there is one. -/
theorem pointsInto_found {kind : SyntaxErrorKind} (h : kind.found? = some text.head?) :
    (Fault.atHead kind text).PointsInto text where
  here_suffix := List.suffix_refl text
  past_suffix := List.tail_suffix text
  found_eq found hfound := by
    rw [← Option.some.inj (h.symm.trans hfound)]
    cases text with
    | nil => rfl
    | cons c cs => rfl
  here_eq_nil hfound := List.head?_eq_none_iff.mp (Option.some.inj (h.symm.trans hfound))
  word_eq word hword := by
    have hnone : kind.found? = none := SyntaxErrorKind.found?_eq_none hword
    cases h.symm.trans hnone

/-- The error is about a word, or says nothing of what was found. -/
theorem pointsInto_word {kind : SyntaxErrorKind} (hfound : kind.found? = none)
    (hword : ∀ word, kind.word? = some word → text = word.toList ++ rest) (hrest : rest <:+ text) :
    (Fault.mk kind text rest).PointsInto text where
  here_suffix := List.suffix_refl text
  past_suffix := hrest
  found_eq found h := by
    rw [hfound] at h
    cases h
  here_eq_nil h := by
    rw [hfound] at h
    cases h
  word_eq := hword

theorem append_of_identifier? (h : identifier? text = some (name, rest)) :
    text = name.toList ++ rest := by
  obtain ⟨word, -, rfl, htext⟩ := isIdentifier_of_identifier? h
  rwa [String.toList_ofList]

theorem suffix_of_identifier? (h : identifier? text = some (name, rest)) : rest <:+ text :=
  ⟨name.toList, (append_of_identifier? h).symm⟩

theorem points_identifier (text : Text) : Points text Prod.snd (identifier text) := by
  unfold identifier
  split
  next r hr => exact suffix_of_identifier? hr
  next => exact pointsInto_found rfl

theorem points_expectChar (wanted : Char) (text : Text) :
    Points text id (expectChar wanted text) := by
  cases text with
  | nil => exact pointsInto_found rfl
  | cons c cs =>
      rw [expectChar]
      split
      next => exact List.suffix_cons c cs
      next => exact pointsInto_found rfl

theorem points_stringLiteral (text : Text) : Points text Prod.snd (stringLiteral text) := by
  unfold stringLiteral
  split
  next r hr =>
    obtain ⟨written, _, _, _, htail⟩ := quoted_of_stringRest hr
    have hrest : r.2 <:+ text.tail := ⟨written ++ ['"'], by simp [htail]⟩
    exact hrest.trans (List.tail_suffix text)
  next => exact pointsInto_word rfl (fun word h => nomatch h) (List.nil_suffix)

theorem points_numberLiteral (text : Text) : Points text Prod.snd (numberLiteral text) := by
  unfold numberLiteral
  split
  next literal rest hsplit =>
    have htext := (isNumeral_of_splitNumber hsplit).2
    have hrest : rest <:+ text := ⟨literal, htext.symm⟩
    split
    next => exact hrest
    next =>
      refine pointsInto_word rfl (fun word h => ?_) hrest
      rw [← Option.some.inj h, String.toList_ofList, htext]

theorem points_bracketSegment (text : Text) : Points text Prod.snd (bracketSegment text) := by
  unfold bracketSegment
  split
  next => exact (points_stringLiteral text).bind fun r => List.suffix_refl r.2
  next =>
    have htext := (exists_digits text).2
    have hrest : text.dropWhile Char.isDigit <:+ text := List.dropWhile_suffix _
    dsimp only
    split
    next => exact hrest
    next =>
      refine pointsInto_word rfl (fun word h => ?_) hrest
      rw [← Option.some.inj h, String.toList_ofList]
      exact htext

theorem points_pathRest (fuel : Nat) (read : List PathSegment) (text : Text) :
    Points text Prod.snd (pathRest fuel read text) := by
  induction fuel generalizing read text with
  | zero => exact List.suffix_refl text
  | succ fuel ih =>
      unfold pathRest
      split
      next cs =>
        have hcs : cs <:+ '.' :: cs := List.suffix_cons '.' cs
        exact ((points_identifier cs).bind fun r => ih _ r.2).mono hcs
      next cs =>
        have hcs : Text.skipBlanks cs <:+ '[' :: cs :=
          (Text.skipBlanks_suffix cs).trans (List.suffix_cons '[' cs)
        refine ((points_bracketSegment (Text.skipBlanks cs)).bind fun r => ?_).mono hcs
        have hrest := Text.skipBlanks_suffix r.2
        exact ((points_expectChar ']' r.2.skipBlanks).bind fun rest => ih _ rest).mono hrest
      next => exact List.suffix_refl text

theorem points_path (text : Text) : Points text Prod.snd (path text) :=
  (points_identifier text).bind fun r => points_pathRest r.2.length [.key r.1] r.2

section

variable {σ : Type} {close : Char} {item : σ → Text → Except Fault (σ × Text)}

theorem points_separated (hitem : ∀ read text, Points text Prod.snd (item read text)) (fuel : Nat)
    (read : σ) (text : Text) : Points text Prod.snd (separated close item fuel read text) := by
  induction fuel generalizing read text with
  | zero => exact pointsInto_found rfl
  | succ fuel ih =>
      unfold separated
      dsimp only
      split
      next => exact Text.tail_skipBlanks_suffix text
      next =>
        refine ((hitem read text.skipBlanks).bind fun r => ?_).mono (Text.skipBlanks_suffix text)
        have htail := Text.tail_skipBlanks_suffix r.2
        split
        next => exact (ih r.1 r.2.skipBlanks.tail).mono htail
        next =>
          split
          next => exact htail
          next => exact (pointsInto_found rfl).mono (Text.skipBlanks_suffix r.2)

theorem points_bracketed (hitem : ∀ read text, Points text Prod.snd (item read text)) (empty : σ)
    (text : Text) : Points text Prod.snd (bracketed close item empty text) :=
  points_separated hitem (text.length + 1) empty text

end

section

variable {value : Text → Except Fault (Value × Text)}
  (hvalue : ∀ text, Points text Prod.snd (value text))
include hvalue

theorem points_arrayItem (read : List Value) (text : Text) :
    Points text Prod.snd (arrayItem value read text) :=
  (hvalue text).bind fun r => List.suffix_refl r.2

/-- A sign and a value behind it. -/
theorem points_behindSign {left : β → Text} {f : Value × Text → Except Fault β} (sign : Char)
    (rest : Text) (hf : ∀ r, Points r.2 left (f r)) :
    Points rest left (expectChar sign rest.skipBlanks >>= fun rest =>
      value rest.skipBlanks >>= f) := by
  refine ((points_expectChar sign rest.skipBlanks).bind fun behind => ?_).mono
    (Text.skipBlanks_suffix rest)
  exact ((hvalue behind.skipBlanks).bind hf).mono (Text.skipBlanks_suffix behind)

theorem points_mapItem (read : Entries Value) (text : Text) :
    Points text Prod.snd (mapItem value read text) := by
  rw [mapItem_eq]
  have hkey : Points text Prod.snd
      (if text.head? = some '"' then stringLiteral text else identifier text) := by
    split
    next => exact points_stringLiteral text
    next => exact points_identifier text
  refine hkey.bind fun key => ?_
  exact points_behindSign hvalue ':' key.2 fun r => List.suffix_refl r.2

theorem points_callItem (read : Entries Value × Nat) (text : Text) :
    Points text Prod.snd (callItem value read text) := by
  unfold callItem
  split
  next =>
    refine (points_identifier text).bind fun name => ?_
    exact points_behindSign hvalue '=' name.2 fun r => List.suffix_refl r.2
  next => exact (hvalue text).bind fun r => List.suffix_refl r.2

end

/-- A word is a value of its own or the name of a call. -/
theorem points_word {fuel : Nat} (hvalue : ∀ text, Points text Prod.snd (value make fuel text))
    (h : identifier? text = some (name, rest)) :
    Points text Prod.snd (if name = "true" then .ok (.bool true, rest)
      else if name = "false" then .ok (.bool false, rest)
      else if name = "null" then .ok (.null, rest)
      else if rest.head? = some '(' then do
        let (arguments, rest) ← bracketed ')' (callItem (value make fuel)) ([], 0) rest.tail
        return (make.call name arguments.1, rest)
      else .error ⟨.unknownIdentifier name, text, rest⟩) := by
  have hrest := suffix_of_identifier? h
  split_ifs with htrue hfalse hnull hcall
  · exact hrest
  · exact hrest
  · exact hrest
  · have hitems : Points rest.tail Prod.snd
        (bracketed ')' (callItem (value make fuel)) ([], 0) rest.tail) :=
      points_bracketed (points_callItem hvalue) ([], 0) rest.tail
    refine (hitems.bind fun r => ?_).mono ((List.tail_suffix rest).trans hrest)
    exact List.suffix_refl r.2
  · refine pointsInto_word rfl (fun word hword => ?_) hrest
    rw [← Option.some.inj hword]
    exact append_of_identifier? h

theorem points_value (fuel : Nat) (text : Text) : Points text Prod.snd (value make fuel text) := by
  induction fuel generalizing text with
  | zero => exact pointsInto_found rfl
  | succ fuel ih =>
      cases text with
      | nil => exact pointsInto_found rfl
      | cons c cs =>
          have hcs := List.suffix_cons c cs
          rw [value]
          split_ifs with hquote harray hmap hreference hnumber
          · exact (points_stringLiteral (c :: cs)).bind fun r => List.suffix_refl r.2
          · have hitems : Points cs Prod.snd (bracketed ']' (arrayItem (value make fuel)) [] cs) :=
              points_bracketed (points_arrayItem ih) [] cs
            exact Points.mono (hitems.bind fun r => List.suffix_refl r.2) hcs
          · have hitems : Points cs Prod.snd (bracketed '\x7d' (mapItem (value make fuel)) [] cs) :=
              points_bracketed (points_mapItem ih) [] cs
            exact Points.mono (hitems.bind fun r => List.suffix_refl r.2) hcs
          · exact Points.mono ((points_path cs).bind fun r => List.suffix_refl r.2) hcs
          · exact (points_numberLiteral (c :: cs)).bind fun r => List.suffix_refl r.2
          · split
            next => exact pointsInto_found rfl
            next name rest hname => exact points_word ih hname

theorem points_expression (text : Text) : Points text Prod.snd (expression make text) :=
  points_value (text.length + 1) text

theorem points_attributes (fuel : Nat) (read : List Attribute) (text : Text) :
    Points text Prod.snd (attributes make fuel read text) := by
  induction fuel generalizing read text with
  | zero => exact List.suffix_refl text
  | succ fuel ih =>
      have hskip := Text.skipBlanks_suffix text
      unfold attributes
      split
      next => exact List.nil_suffix
      next c cs heq =>
        rw [heq] at hskip
        have hcs := (List.suffix_cons c cs).trans hskip
        split_ifs with hslash hid hclass
        · exact hskip
        · exact ((points_identifier cs).bind fun r => ih _ r.2).mono hcs
        · exact ((points_identifier cs).bind fun r => ih _ r.2).mono hcs
        · split
          next => exact (pointsInto_found rfl).mono hskip
          next name rest hname =>
            refine Points.mono ?_ ((suffix_of_identifier? hname).trans hskip)
            exact points_behindSign points_expression '=' rest fun r => ih _ r.2

theorem points_primary (text : Text) : Points text Prod.snd (primary make text) := by
  unfold primary
  split
  next => exact (points_expression text).bind fun r => List.suffix_refl r.2
  next => exact List.suffix_refl text

/-- Nothing is left behind the end. -/
def PointsWhole (text : Text) (x : Except Fault α) : Prop :=
  Points text (fun _ => []) x

theorem points_expectEnd (text : Text) : PointsWhole text (expectEnd text) := by
  have hskip := Text.skipBlanks_suffix text
  unfold expectEnd
  split
  next => exact List.nil_suffix
  next c cs heq =>
    rw [heq] at hskip
    exact (pointsInto_found rfl).mono hskip

theorem points_atEnd (text : Text) (d : Descriptor) :
    PointsWhole text (do expectEnd text; return d) :=
  (points_expectEnd text).bind fun _ => List.nil_suffix

theorem points_closingTag (text : Text) : PointsWhole text (closingTag text) := by
  have hskip := Text.skipBlanks_suffix text
  unfold closingTag
  split
  next =>
    have hname : (Fault.atHead .expectedTagName text.skipBlanks).PointsInto text.skipBlanks :=
      pointsInto_word rfl (fun word h => nomatch h) (List.tail_suffix _)
    exact hname.mono hskip
  next name rest hname =>
    exact (points_atEnd rest (.closing name)).mono ((suffix_of_identifier? hname).trans hskip)

theorem points_namedTag (name : String) (text : Text) :
    PointsWhole text (namedTag make name text) := by
  refine Points.mono ?_ (Text.skipBlanks_suffix text)
  refine (points_primary text.skipBlanks).bind fun first => ?_
  refine (points_attributes _ [] first.2).bind fun others => ?_
  dsimp only
  split
  next => exact (points_atEnd others.2.tail _).mono (List.tail_suffix others.2)
  next => exact points_atEnd others.2 _

theorem points_annotating (text : Text) : PointsWhole text (descriptor.annotation make text) :=
  (points_attributes _ [] text).bind fun r => points_atEnd r.2 (.annotating r.1)

theorem points_descriptor (body : Text) : PointsWhole body (descriptor make body) := by
  have hskip := Text.skipBlanks_suffix body
  unfold descriptor
  split
  next =>
    have hempty : (Fault.atHead .emptyTag []).PointsInto [] :=
      pointsInto_word rfl (fun word h => nomatch h) List.nil_suffix
    exact hempty.mono List.nil_suffix
  next cs heq =>
    rw [heq] at hskip
    exact (points_closingTag cs).mono ((List.suffix_cons '/' cs).trans hskip)
  next =>
    split
    next name rest hname =>
      split
      next => exact (points_annotating body.skipBlanks).mono hskip
      next => exact (points_namedTag name rest).mono ((suffix_of_identifier? hname).trans hskip)
    next => exact (points_annotating body.skipBlanks).mono hskip

end Grammar

/-- Remainders as offsets. -/
theorem Fault.PointsInto.pointsInto_locate {body : Text} {fault : Fault}
    (h : fault.PointsInto body) : (fault.locate body).PointsInto body := by
  obtain ⟨before, hbefore⟩ := h.here_suffix
  obtain ⟨covered, hcovered⟩ := h.past_suffix
  have hbody : before ++ covered ++ fault.past = body := by
    rw [List.append_assoc, hcovered, hbefore]
  have hstart : (fault.locate body).start = Text.width before := by
    rw [Fault.locate, ← hbefore, Text.width_append]
    exact Nat.add_sub_cancel ..
  have hstop : (fault.locate body).stop = Text.width (before ++ covered) := by
    rw [Fault.locate, ← hbody, Text.width_append (before ++ covered)]
    exact Nat.add_sub_cancel ..
  have hdrop : body.dropBytes (fault.locate body).start = fault.here := by
    rw [hstart, ← hbefore, Text.dropBytes_width_append]
  have hslice : body.slice (fault.locate body).start (fault.locate body).stop = covered := by
    rw [hstart, hstop, ← hbody, Text.slice_append]
  have hcover : ∀ word : Text, fault.here = word ++ fault.past → covered = word :=
    fun word hword => List.append_cancel_right (hcovered.trans hword)
  constructor
  case start_le =>
    rw [hstart, hstop, Text.width_append]
    exact Nat.le_add_right ..
  case stop_le =>
    rw [hstop, ← hbody, Text.width_append (before ++ covered)]
    exact Nat.le_add_right ..
  case start_boundary => exact ⟨before, fault.here, hbefore.symm, hstart⟩
  case stop_boundary => exact ⟨before ++ covered, fault.past, hbody.symm, hstop⟩
  case head?_eq =>
    intro found hfound
    rw [hdrop]
    cases found with
    | none => rw [h.here_eq_nil hfound]; rfl
    | some c => rw [h.found_eq (some c) hfound]; rfl
  case found_eq =>
    intro found hfound
    rw [hslice]
    exact hcover _ (h.found_eq found hfound)
  case start_eq =>
    intro hfound
    rw [hstart, ← hbefore, h.here_eq_nil hfound, List.append_nil]
  case word_eq =>
    intro word hword
    rw [hslice]
    exact hcover _ (h.word_eq word hword)

/-- Whatever references and calls become. -/
theorem Grammar.pointsInto_of_read {make : Constructors} {body : Text} {e : SyntaxError}
    (h : read make body = .error e) : e.PointsInto body := by
  have hpoints : PointsWhole body (descriptor make body) := points_descriptor body
  unfold read at h
  cases hd : descriptor make body with
  | ok d =>
      rw [hd] at h
      cases h
  | error fault =>
      rw [hd] at h hpoints
      cases h
      exact hpoints.pointsInto_locate

end TaggedText
