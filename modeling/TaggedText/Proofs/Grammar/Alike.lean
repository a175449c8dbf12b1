import TaggedText.Proofs.Grammar.Words

/-!
# Texts that differ in the blanks at their ends

Two such texts are read side by side: whatever a reader takes from one of them it takes from the
other, and it leaves texts that differ in the same way. Where one of them has come to its end, the
other has nothing but blanks left, and no reader accepts a blank where it does not accept the end.

The number of characters left bounds how far the loops may go, so it belongs to the relation of the
two texts, and a character that both begin with takes one off either bound.
-/
namespace TaggedText.Grammar

variable {α β : Type} {make : Constructors} {s t : Text} {c : Char} {m n m' n' : Nat}

/-- Texts of at most `m` and `n` characters that differ only in the blanks at their ends. -/
inductive Alike : Nat → Nat → Text → Text → Prop
  | blanks {m n : Nat} {s t : Text} : Blanks s → Blanks t → s.length ≤ m → t.length ≤ n →
      Alike m n s t
  | cons {m n : Nat} {s t : Text} (c : Char) : Alike m n s t →
      Alike (m + 1) (n + 1) (c :: s) (c :: t)

/-- Alike texts that are both at their ends or both at a character that is not blank. -/
inductive Aligned : Nat → Nat → Text → Text → Prop
  | nil {m n : Nat} : Aligned m n [] []
  | cons {m n : Nat} {c : Char} {s t : Text} : ¬ Text.isBlank c → Alike m n s t →
      Aligned (m + 1) (n + 1) (c :: s) (c :: t)

theorem Blanks.head?_ne (h : Blanks s) (hc : ¬ Text.isBlank c) : s.head? ≠ some c := by
  intro hs
  exact hc (h c (List.mem_of_mem_head? hs))

/-- Blanks are no part of a run of other characters. -/
theorem Blanks.span {p : Char → Bool} (h : Blanks s) (hp : ∀ c, Text.isBlank c → ¬ p c) :
    s.takeWhile p = [] ∧ s.dropWhile p = s := by
  have hword : ∀ c ∈ ([] : Text), p c := nofun
  exact span_append hword fun c hc => hp c (h c (List.mem_of_mem_head? hc))

namespace Alike

theorem symm (h : Alike m n s t) : Alike n m t s := by
  induction h with
  | blanks hs ht hm hn => exact .blanks ht hs hn hm
  | cons c _ ih => exact .cons c ih

theorem mono (h : Alike m n s t) (hm : m ≤ m') (hn : n ≤ n') : Alike m' n' s t := by
  induction h generalizing m' n' with
  | blanks hs ht hsm htn => exact .blanks hs ht (hsm.trans hm) (htn.trans hn)
  | cons c _ ih =>
      obtain ⟨m', rfl⟩ := Nat.exists_eq_succ_of_ne_zero (Nat.ne_zero_of_lt hm)
      obtain ⟨n', rfl⟩ := Nat.exists_eq_succ_of_ne_zero (Nat.ne_zero_of_lt hn)
      exact .cons c (ih (Nat.le_of_succ_le_succ hm) (Nat.le_of_succ_le_succ hn))

theorem length_le (h : Alike m n s t) : s.length ≤ m ∧ t.length ≤ n := by
  induction h with
  | blanks _ _ hm hn => exact ⟨hm, hn⟩
  | cons c _ ih => exact ih.imp Nat.succ_le_succ Nat.succ_le_succ

/-- The bounds may be the lengths. -/
theorem tight (h : Alike m n s t) : Alike s.length t.length s t := by
  induction h with
  | blanks hs ht => exact .blanks hs ht le_rfl le_rfl
  | cons c _ ih => exact .cons c ih

theorem append_blanks {after : Text} (text : Text) (h : Blanks after) :
    Alike (text ++ after).length text.length (text ++ after) text := by
  induction text with
  | nil => exact .blanks h blanks_nil le_rfl le_rfl
  | cons c cs ih => exact .cons c ih

/-- What is behind a character that is not blank. -/
theorem of_append {word : Text} (h : Alike m n (word ++ c :: s) t) (hc : ¬ Text.isBlank c) :
    ∃ rest, t = word ++ c :: rest ∧ Alike m n s rest := by
  induction word generalizing m n t with
  | nil =>
      cases h with
      | blanks hs => exact absurd (hs c List.mem_cons_self) hc
      | cons c h => exact ⟨_, rfl, h.mono (Nat.le_succ _) (Nat.le_succ _)⟩
  | cons d word ih =>
      cases h with
      | blanks hs => exact absurd (hs c (by simp)) hc
      | cons d h =>
          obtain ⟨rest, rfl, hrest⟩ := ih h
          exact ⟨rest, rfl, hrest.mono (Nat.le_succ _) (Nat.le_succ _)⟩

theorem head?_iff (h : Alike m n s t) (hc : ¬ Text.isBlank c) :
    s.head? = some c ↔ t.head? = some c := by
  cases h with
  | blanks hs ht => exact iff_of_false (hs.head?_ne hc) (ht.head?_ne hc)
  | cons d h => exact Iff.rfl

/-- Behind a character that both texts begin with there is one character less. -/
theorem exists_cons (h : Alike m n s t) (hc : ¬ Text.isBlank c) (hs : s.head? = some c) :
    ∃ m' n' s' t', m = m' + 1 ∧ n = n' + 1 ∧ s = c :: s' ∧ t = c :: t' ∧ Alike m' n' s' t' := by
  cases h with
  | blanks hblanks => exact absurd hs (hblanks.head?_ne hc)
  | cons d h =>
      obtain rfl := Option.some.inj hs
      exact ⟨_, _, _, _, rfl, rfl, rfl, rfl, h⟩

theorem tail (h : Alike m n s t) : Alike m n s.tail t.tail := by
  cases h with
  | blanks hs ht hm hn =>
      refine .blanks (fun c hc => hs c (List.mem_of_mem_tail hc))
        (fun c hc => ht c (List.mem_of_mem_tail hc)) ?_ ?_
      · exact (List.tail_suffix s).length_le.trans hm
      · exact (List.tail_suffix t).length_le.trans hn
  | cons c h => exact h.mono (Nat.le_succ _) (Nat.le_succ _)

/-- A run of characters that are not blank. -/
theorem span {p : Char → Bool} (h : Alike m n s t) (hp : ∀ c, Text.isBlank c → ¬ p c) :
    s.takeWhile p = t.takeWhile p ∧ Alike m n (s.dropWhile p) (t.dropWhile p) := by
  induction h with
  | blanks hs ht hm hn =>
      obtain ⟨hstake, hsdrop⟩ := hs.span hp
      obtain ⟨httake, htdrop⟩ := ht.span hp
      rw [hstake, httake, hsdrop, htdrop]
      exact ⟨rfl, .blanks hs ht hm hn⟩
  | cons c h ih =>
      by_cases hc : p c
      · simp only [List.takeWhile_cons_of_pos hc, List.dropWhile_cons_of_pos hc]
        exact ⟨congrArg (c :: ·) ih.1, ih.2.mono (Nat.le_succ _) (Nat.le_succ _)⟩
      · simp only [List.takeWhile_cons_of_neg hc, List.dropWhile_cons_of_neg hc]
        exact ⟨trivial, .cons c h⟩

end Alike

theorem Aligned.alike (h : Aligned m n s t) : Alike m n s t := by
  cases h with
  | nil => exact .blanks blanks_nil blanks_nil (Nat.zero_le _) (Nat.zero_le _)
  | cons _ h => exact .cons _ h

theorem Aligned.mono (h : Aligned m n s t) (hm : m ≤ m') (hn : n ≤ n') : Aligned m' n' s t := by
  cases h with
  | nil => exact .nil
  | cons hc h =>
      obtain ⟨m', rfl⟩ := Nat.exists_eq_succ_of_ne_zero (Nat.ne_zero_of_lt hm)
      obtain ⟨n', rfl⟩ := Nat.exists_eq_succ_of_ne_zero (Nat.ne_zero_of_lt hn)
      exact .cons hc (h.mono (Nat.le_of_succ_le_succ hm) (Nat.le_of_succ_le_succ hn))

theorem Alike.skipBlanks (h : Alike m n s t) : Aligned m n s.skipBlanks t.skipBlanks := by
  induction h with
  | blanks hs ht =>
      have hnil : ∀ {text : Text}, Blanks text → text.skipBlanks = [] :=
        fun h => List.dropWhile_eq_nil_iff.mpr h
      rw [hnil hs, hnil ht]
      exact .nil
  | cons c h ih =>
      by_cases hc : Text.isBlank c
      · rw [Text.skipBlanks, Text.skipBlanks, List.dropWhile_cons_of_pos hc,
          List.dropWhile_cons_of_pos hc]
        exact ih.mono (Nat.le_succ _) (Nat.le_succ _)
      · rw [skipBlanks_cons hc, skipBlanks_cons hc]
        exact .cons hc h

/-- Both readers fail, or both succeed with related results. -/
inductive Agree (R : α → α → Prop) : Except Fault α → Except Fault α → Prop
  | ok {a b : α} : R a b → Agree R (.ok a) (.ok b)
  | error (f g : Fault) : Agree R (.error f) (.error g)

/-- The same was read, and alike texts are left. -/
inductive SameRead (m n : Nat) : α × Text → α × Text → Prop
  | intro (a : α) {s t : Text} : Alike m n s t → SameRead m n (a, s) (a, t)

theorem SameRead.mono {r r' : α × Text} (h : SameRead m n r r') (hm : m ≤ m') (hn : n ≤ n') :
    SameRead m' n' r r' := by
  cases h with
  | intro a h => exact .intro a (h.mono hm hn)

namespace Agree

variable {R : α → α → Prop} {S : β → β → Prop} {x y x' y' : Except Fault α}

theorem mono {R' : α → α → Prop} (h : Agree R x y) (hR : ∀ a b, R a b → R' a b) :
    Agree R' x y := by
  cases h with
  | ok h => exact .ok (hR _ _ h)
  | error f g => exact .error f g

theorem bind {f g : α → Except Fault β} (h : Agree R x y)
    (hf : ∀ a b, R a b → Agree S (f a) (g b)) : Agree S (x >>= f) (y >>= g) := by
  cases h with
  | ok h => exact hf _ _ h
  | error f g => exact .error f g

/-- A reader of what another one left. -/
theorem andThen {x y : Except Fault (α × Text)} {f g : α × Text → Except Fault β}
    (h : Agree (SameRead m n) x y)
    (hf : ∀ a s t, Alike m n s t → Agree S (f (a, s)) (g (a, t))) :
    Agree S (x >>= f) (y >>= g) :=
  h.bind fun _ _ hr => by
    cases hr with
    | intro a h => exact hf a _ _ h

theorem ite {p q : Prop} [Decidable p] [Decidable q] (hpq : p ↔ q)
    (hx : p → q → Agree R x y) (hy : Agree R x' y') :
    Agree R (if p then x else x') (if q then y else y') := by
  by_cases hp : p
  · rw [if_pos hp, if_pos (hpq.mp hp)]
    exact hx hp (hpq.mp hp)
  · rw [if_neg hp, if_neg (mt hpq.mpr hp)]
    exact hy

end Agree

/-- Readers that agree on alike texts of at most so many characters. -/
def AgreeUpTo (m n : Nat) (read read' : Text → Except Fault (α × Text)) : Prop :=
  ∀ ⦃k l s t⦄, k ≤ m → l ≤ n → Alike k l s t → Agree (SameRead k l) (read s) (read' t)

theorem AgreeUpTo.mono {read read' : Text → Except Fault (α × Text)} (h : AgreeUpTo m n read read')
    (hm : m' ≤ m) (hn : n' ≤ n) : AgreeUpTo m' n' read read' :=
  fun _ _ _ _ hk hl => h (hk.trans hm) (hl.trans hn)

theorem not_isIdentifierChar_of_isBlank (c : Char) (h : Text.isBlank c) : ¬ isIdentifierChar c :=
  fun hc => not_isBlank_of_isIdentifierChar hc h

theorem not_isDigit_of_isBlank (c : Char) (h : Text.isBlank c) : ¬ c.isDigit :=
  fun hc => not_isBlank_of_isIdentifierChar (isIdentifierChar_of_isDigit hc) h

theorem identifier?_of_blanks (h : Blanks s) : identifier? s = none := by
  match s with
  | [] => rfl
  | c :: cs =>
      have hc := not_isIdentifierChar_of_isBlank c (h c List.mem_cons_self)
      exact if_neg fun hstart => hc (isIdentifierChar_of_isIdentifierStart hstart)

/-- A word takes its first character away. -/
theorem identifier?_cons_alike (c : Char) (h : Alike m n s t) :
    Option.Rel (SameRead m n) (identifier? (c :: s)) (identifier? (c :: t)) := by
  obtain ⟨htake, hdrop⟩ := h.span not_isIdentifierChar_of_isBlank
  rw [identifier?, identifier?, htake]
  split
  · exact .some (.intro _ hdrop)
  · exact .none

theorem identifier?_alike (h : Alike m n s t) :
    Option.Rel (SameRead m n) (identifier? s) (identifier? t) := by
  cases h with
  | blanks hs ht =>
      rw [identifier?_of_blanks hs, identifier?_of_blanks ht]
      exact .none
  | @cons m n s t c h =>
      have hword := identifier?_cons_alike c h
      generalize identifier? (c :: s) = x, identifier? (c :: t) = y at hword
      cases hword with
      | some hr => exact .some (hr.mono (Nat.le_succ m) (Nat.le_succ n))
      | none => exact .none

theorem identifier_alike (h : Alike m n s t) :
    Agree (SameRead m n) (identifier s) (identifier t) := by
  have hword := identifier?_alike h
  unfold identifier
  generalize identifier? s = x, identifier? t = y at hword
  cases hword with
  | some hr => exact .ok hr
  | none => exact .error _ _

theorem startsAttribute_alike (h : Alike m n s t) : startsAttribute s = startsAttribute t := by
  have hword := identifier?_alike h
  unfold startsAttribute
  generalize identifier? s = x, identifier? t = y at hword
  cases hword with
  | none => rfl
  | some hr =>
      cases hr with
      | intro name h => exact decide_eq_decide.mpr (h.skipBlanks.alike.head?_iff (by decide))

theorem expectChar_eq (wanted : Char) (text : Text) : expectChar wanted text =
    if text.head? = some wanted then .ok text.tail
    else .error (.atHead (.expected wanted text.head?) text) := by
  cases text with
  | nil => rfl
  | cons c cs => simp [expectChar]

theorem expectChar_alike (hc : ¬ Text.isBlank c) (h : Alike m n s t) :
    Agree (Alike m n) (expectChar c s) (expectChar c t) := by
  rw [expectChar_eq, expectChar_eq]
  refine .ite (h.head?_iff hc) (fun hs _ => ?_) (.error _ _)
  obtain ⟨m, n, s, t, rfl, rfl, rfl, rfl, hrest⟩ := h.exists_cons hc hs
  exact .ok (hrest.mono (Nat.le_succ m) (Nat.le_succ n))

theorem exists_stringRest_alike {read rest : Text} {x : String} (h : Alike m n s t)
    (hs : stringRest read s = some (x, rest)) :
    ∃ rest', stringRest read t = some (x, rest') ∧ Alike m n rest rest' := by
  obtain ⟨written, meant, hquoted, rfl, rfl⟩ := quoted_of_stringRest hs
  obtain ⟨rest', rfl, hrest⟩ := h.of_append (by decide)
  exact ⟨rest', stringRest_append hquoted, hrest⟩

theorem stringRest_alike {read : Text} (h : Alike m n s t) :
    Option.Rel (SameRead m n) (stringRest read s) (stringRest read t) := by
  cases hs : stringRest read s with
  | some r =>
      obtain ⟨rest, ht, hrest⟩ := exists_stringRest_alike h hs
      rw [ht]
      exact .some (.intro r.1 hrest)
  | none =>
      cases ht : stringRest read t with
      | none => exact .none
      | some r =>
          obtain ⟨rest, hs', -⟩ := exists_stringRest_alike h.symm ht
          cases hs.symm.trans hs'

theorem stringLiteral_alike (h : Alike m n s t) :
    Agree (SameRead m n) (stringLiteral s) (stringLiteral t) := by
  have hrest : Option.Rel (SameRead m n) (stringRest [] s.tail) (stringRest [] t.tail) :=
    stringRest_alike h.tail
  unfold stringLiteral
  generalize stringRest [] s.tail = x, stringRest [] t.tail = y at hrest
  cases hrest with
  | some hr => exact .ok hr
  | none => exact .error _ _

theorem splitUnsigned_eq (sign body : Text) : splitUnsigned sign body =
    if (body.dropWhile Char.isDigit).head? = some '.' then
      let cs := (body.dropWhile Char.isDigit).tail
      (sign ++ body.takeWhile Char.isDigit ++ '.' :: cs.takeWhile Char.isDigit,
        cs.dropWhile Char.isDigit)
    else (sign ++ body.takeWhile Char.isDigit, body.dropWhile Char.isDigit) := by
  unfold splitUnsigned
  split
  next heq => simp [heq]
  next hne =>
    rw [if_neg]
    intro hhead
    obtain ⟨cs, hcs⟩ := List.head?_eq_some_iff.mp hhead
    exact hne cs hcs

theorem splitUnsigned_alike (sign : Text) (h : Alike m n s t) :
    SameRead m n (splitUnsigned sign s) (splitUnsigned sign t) := by
  obtain ⟨htake, hdrop⟩ := h.span not_isDigit_of_isBlank
  obtain ⟨htake', hdrop'⟩ := hdrop.tail.span not_isDigit_of_isBlank
  have hpoint := hdrop.head?_iff (c := '.') (by decide)
  rw [splitUnsigned_eq, splitUnsigned_eq]
  dsimp only
  rw [htake, htake']
  by_cases hs : (s.dropWhile Char.isDigit).head? = some '.'
  · rw [if_pos hs, if_pos (hpoint.mp hs)]
    exact .intro _ hdrop'
  · rw [if_neg hs, if_neg (mt hpoint.mpr hs)]
    exact .intro _ hdrop

theorem splitNumber_alike (h : Alike m n s t) :
    SameRead m n (splitNumber s) (splitNumber t) := by
  by_cases hs : s.head? = some '-'
  · obtain ⟨m, n, s, t, rfl, rfl, rfl, rfl, hrest⟩ := h.exists_cons (by decide) hs
    rw [splitNumber_minus, splitNumber_minus]
    exact (splitUnsigned_alike ['-'] hrest).mono (Nat.le_succ m) (Nat.le_succ n)
  · rw [splitNumber_of_ne hs, splitNumber_of_ne (mt (h.head?_iff (by decide)).mpr hs)]
    exact splitUnsigned_alike [] h

theorem numberLiteral_alike (h : Alike m n s t) :
    Agree (SameRead m n) (numberLiteral s) (numberLiteral t) := by
  have hsplit := splitNumber_alike h
  unfold numberLiteral
  generalize splitNumber s = x, splitNumber t = y at hsplit
  cases hsplit with
  | intro literal h =>
      dsimp only
      split
      next number _ => exact .ok (.intro number h)
      next => exact .error _ _

theorem bracketSegment_alike (h : Alike m n s t) :
    Agree (SameRead m n) (bracketSegment s) (bracketSegment t) := by
  refine .ite (h.head?_iff (by decide)) (fun _ _ => ?_) ?_
  · exact (stringLiteral_alike h).andThen fun name _ _ hrest =>
      .ok (.intro (PathSegment.key name) hrest)
  · obtain ⟨htake, hdrop⟩ := h.span not_isDigit_of_isBlank
    dsimp only
    rw [htake]
    split
    next number _ => exact .ok (.intro (PathSegment.index number) hdrop)
    next => exact .error _ _

theorem pathRest_of_head? {text : Text} (fuel : Nat) (read : List PathSegment)
    (hdot : text.head? ≠ some '.') (hbracket : text.head? ≠ some '[') :
    pathRest fuel read text = .ok (read.reverse, text) := by
  cases fuel with
  | zero => rfl
  | succ fuel =>
      rw [pathRest]
      · rintro cs rfl
        exact hdot rfl
      · rintro cs rfl
        exact hbracket rfl

theorem pathRest_alike (read : List PathSegment) (h : Alike m n s t) :
    Agree (SameRead m n) (pathRest m read s) (pathRest n read t) := by
  induction m using Nat.strong_induction_on generalizing n s t read with
  | _ m ih =>
    have hdot := h.head?_iff (c := '.') (by decide)
    have hbracket := h.head?_iff (c := '[') (by decide)
    by_cases hs : s.head? = some '.'
    · obtain ⟨m, n, s, t, rfl, rfl, rfl, rfl, hbehind⟩ := h.exists_cons (by decide) hs
      rw [pathRest, pathRest]
      refine (identifier_alike hbehind).andThen fun name _ _ hrest => ?_
      exact (ih m m.lt_succ_self _ hrest).mono fun _ _ hr => hr.mono (Nat.le_succ m) (Nat.le_succ n)
    by_cases hs' : s.head? = some '['
    · obtain ⟨m, n, s, t, rfl, rfl, rfl, rfl, hbehind⟩ := h.exists_cons (by decide) hs'
      rw [pathRest, pathRest]
      refine (bracketSegment_alike hbehind.skipBlanks.alike).andThen fun segment _ _ hrest => ?_
      refine (expectChar_alike (by decide) hrest.skipBlanks.alike).bind fun _ _ hrest => ?_
      exact (ih m m.lt_succ_self _ hrest).mono fun _ _ hr => hr.mono (Nat.le_succ m) (Nat.le_succ n)
    · rw [pathRest_of_head? m read hs hs',
        pathRest_of_head? n read (mt hdot.mpr hs) (mt hbracket.mpr hs')]
      exact .ok (.intro _ h)

theorem path_alike (h : Alike m n s t) : Agree (SameRead m n) (path s) (path t) := by
  refine (identifier_alike h).andThen fun name _ _ hrest => ?_
  exact (pathRest_alike _ hrest.tight).mono fun _ _ hr =>
    hr.mono hrest.length_le.1 hrest.length_le.2

end TaggedText.Grammar
