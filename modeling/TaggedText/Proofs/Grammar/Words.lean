import TaggedText.Proofs.Grammar.Soundness

/-!
# Where words end

An identifier, a string, a number or a path is read to its end if what follows cannot belong to it. The
text behind a word is thus part of each statement. A value ends before a blank, a comma or a closing
bracket, and no word is made of such characters.
-/
namespace TaggedText.Grammar

variable {text rest word : Text} {c : Char}

/-- What a word is made of lies in these ranges. -/
theorem bounds_of_isIdentifierChar (h : isIdentifierChar c) :
    0x30 ≤ c.toNat ∧ c.toNat ≤ 0x39 ∨ 0x41 ≤ c.toNat ∧ c.toNat ≤ 0x5A ∨
      0x61 ≤ c.toNat ∧ c.toNat ≤ 0x7A ∨ c.toNat = 0x5F ∨ c.toNat = 0x2D := by
  unfold isIdentifierChar at h
  simp only [Char.isAlphanum, Char.isAlpha, Char.isDigit, Char.isUpper, Char.isLower,
    Bool.or_eq_true, Bool.and_eq_true, decide_eq_true_eq, UInt32.le_iff_toNat_le] at h
  rcases h with (((h | h) | h) | rfl) | rfl
  · exact .inr (.inl h)
  · exact .inr (.inr (.inl h))
  · exact .inl h
  · exact .inr (.inr (.inr (.inl rfl)))
  · exact .inr (.inr (.inr (.inr rfl)))

theorem isIdentifierChar_of_isDigit (h : c.isDigit) : isIdentifierChar c := by
  simp [isIdentifierChar, Char.isAlphanum, h]

theorem isIdentifierChar_of_isIdentifierStart (h : isIdentifierStart c) : isIdentifierChar c := by
  unfold isIdentifierStart at h
  unfold isIdentifierChar
  simp only [Char.isAlphanum, Bool.or_eq_true] at h ⊢
  rcases h with h | h
  · exact .inl (.inl (.inl h))
  · exact .inl (.inr h)

theorem not_isBlank_of_isIdentifierChar (h : isIdentifierChar c) : ¬ Text.isBlank c := by
  have hbounds := bounds_of_isIdentifierChar h
  simp only [Text.isBlank, Bool.or_eq_true, Bool.and_eq_true, decide_eq_true_eq, beq_iff_eq]
  omega

/-- A character that stands behind words and values and is no part of them. -/
def Ends (c : Char) : Prop :=
  Text.isBlank c ∨ c = ',' ∨ c = ']' ∨ c = '\x7d' ∨ c = ')'

instance (c : Char) : Decidable (Ends c) :=
  inferInstanceAs (Decidable (_ ∨ _))

theorem Ends.not_isIdentifierChar (h : Ends c) : ¬ isIdentifierChar c := by
  rcases h with h | rfl | rfl | rfl | rfl
  · exact fun hc => not_isBlank_of_isIdentifierChar hc h
  all_goals decide

theorem Ends.ne (h : Ends c) : c ≠ '.' ∧ c ≠ '[' := by
  rcases h with h | rfl | rfl | rfl | rfl
  · constructor
    · rintro rfl
      exact absurd h (by decide)
    · rintro rfl
      exact absurd h (by decide)
  all_goals decide

theorem skipBlanks_append {blanks : Text} (h : Blanks blanks) :
    Text.skipBlanks (blanks ++ text) = text.skipBlanks :=
  List.dropWhile_append_of_pos h

theorem skipBlanks_cons (h : ¬ Text.isBlank c) : Text.skipBlanks (c :: text) = c :: text :=
  List.dropWhile_cons_of_neg h

/-- A run of characters ends where what follows does not begin with one of them. -/
theorem span_append {p : Char → Bool} (hword : ∀ c ∈ word, p c) (hrest : ∀ c ∈ rest.head?, ¬ p c) :
    (word ++ rest).takeWhile p = word ∧ (word ++ rest).dropWhile p = rest := by
  have htake : rest.takeWhile p = [] := by
    match rest with
    | [] => rfl
    | c :: cs => exact List.takeWhile_cons_of_neg (hrest c rfl)
  have hdrop : rest.dropWhile p = rest := by
    match rest with
    | [] => rfl
    | c :: cs => exact List.dropWhile_cons_of_neg (hrest c rfl)
  constructor
  · rw [List.takeWhile_append_of_pos hword, htake, List.append_nil]
  · rw [List.dropWhile_append_of_pos hword, hdrop]

/-- What holds of blanks and of what follows them holds of the first character. -/
theorem head?_blanks_append {P : Char → Prop} {blanks : Text} (hblanks : Blanks blanks)
    (hP : ∀ c, Text.isBlank c → P c) (hrest : blanks = [] → ∀ c ∈ rest.head?, P c) :
    ∀ c ∈ (blanks ++ rest).head?, P c := by
  intro c hc
  match blanks with
  | [] => exact hrest rfl c hc
  | b :: bs =>
      cases hc
      exact hP c (hblanks c List.mem_cons_self)

theorem ends_head?_blanks_append {blanks : Text} {d : Char} (hblanks : Blanks blanks)
    (hd : Ends d) : ∀ c ∈ (blanks ++ d :: rest).head?, Ends c := by
  refine head?_blanks_append hblanks (fun c hc => .inl hc) fun _ c hc => ?_
  cases hc
  exact hd

/-- A word ends at blanks with a sign behind them. -/
theorem not_isIdentifierChar_head?_blanks_append {blanks : Text} (hblanks : Blanks blanks)
    (hc : ¬ isIdentifierChar c) : ∀ d ∈ (blanks ++ c :: rest).head?, ¬ isIdentifierChar d := by
  refine head?_blanks_append hblanks ?_ fun _ d hd => ?_
  · exact fun d hd hword => not_isBlank_of_isIdentifierChar hword hd
  · cases hd
    exact hc

theorem identifier?_append (hword : IsIdentifier word)
    (hrest : ∀ c ∈ rest.head?, ¬ isIdentifierChar c) :
    identifier? (word ++ rest) = some (String.ofList word, rest) := by
  match word with
  | [] => exact hword.elim
  | c :: cs =>
      have ⟨hc, hcs⟩ := isIdentifier_cons_iff.mp hword
      have ⟨htake, hdrop⟩ := span_append hcs hrest
      rw [List.cons_append, identifier?, if_pos hc, htake, hdrop]

theorem identifier_append (hword : IsIdentifier word)
    (hrest : ∀ c ∈ rest.head?, ¬ isIdentifierChar c) :
    identifier (word ++ rest) = .ok (String.ofList word, rest) := by
  rw [identifier, identifier?_append hword hrest]

theorem Escapes.unescape_eq {c d : Char} (h : Escapes c d) : unescape c = d := by
  cases h with
  | newline => rfl
  | tab => rfl
  | carriageReturn => rfl
  | other hn ht hr => rw [unescape, if_neg hn, if_neg ht, if_neg hr]

theorem stringRest_append {written meant read : Text} (h : Quoted written meant) :
    stringRest read (written ++ '"' :: rest) = some (String.ofList (read.reverse ++ meant), rest) := by
  induction h generalizing read with
  | nil => simp [stringRest]
  | raw hquote hbackslash _ ih =>
      rw [List.cons_append, stringRest, ih]
      · simp
      · exact hquote
      · exact fun d cs hd => absurd hd hbackslash
  | escaped hescapes _ ih =>
      rw [List.cons_append, List.cons_append, stringRest, ih, hescapes.unescape_eq]
      simp

theorem stringLiteral_append {s : String} (h : IsString word s) :
    stringLiteral (word ++ rest) = .ok (s, rest) := by
  cases h with
  | @quotes written meant hquoted =>
      have hrest : stringRest [] (written ++ '"' :: rest) = some (String.ofList meant, rest) :=
        stringRest_append hquoted
      rw [stringLiteral]
      simp only [List.cons_append, List.append_assoc, List.tail_cons, List.nil_append, hrest]

/-- What may follow a number. -/
def EndsNumber (rest : Text) : Prop :=
  ∀ c ∈ rest.head?, ¬ c.isDigit ∧ c ≠ '.'

theorem splitUnsigned_whole {sign digits : Text} (hdigits : Digits digits) (hrest : EndsNumber rest) :
    splitUnsigned sign (digits ++ rest) = (sign ++ digits, rest) := by
  have ⟨htake, hdrop⟩ := span_append hdigits fun c hc => (hrest c hc).1
  unfold splitUnsigned
  rw [htake, hdrop]
  split
  next cs => exact absurd rfl (hrest '.' rfl).2
  next => rfl

theorem splitUnsigned_fraction {sign digits decimals : Text} (hdigits : Digits digits)
    (hdecimals : Digits decimals) (hrest : EndsNumber rest) :
    splitUnsigned sign (digits ++ '.' :: (decimals ++ rest)) =
      (sign ++ digits ++ '.' :: decimals, rest) := by
  have hpoint : ∀ c ∈ ('.' :: (decimals ++ rest)).head?, ¬ c.isDigit := by
    rintro c hc
    cases hc
    decide
  have ⟨htake, hdrop⟩ := span_append hdigits hpoint
  have ⟨htake', hdrop'⟩ := span_append hdecimals fun c hc => (hrest c hc).1
  unfold splitUnsigned
  rw [htake, hdrop]
  simp only [htake', hdrop']

theorem splitNumber_append_sign {sign body : Text} (hsign : sign = [] ∨ sign = ['-'])
    (hbody : body.head? ≠ some '-') : splitNumber (sign ++ body) = splitUnsigned sign body := by
  rcases hsign with rfl | rfl
  · exact splitNumber_of_ne hbody
  · exact splitNumber_minus body

theorem head?_ne_minus {digits : Text} (hdigits : Digits digits) (hrest : rest.head? ≠ some '-') :
    (digits ++ rest).head? ≠ some '-' := by
  match digits with
  | [] => exact hrest
  | c :: cs =>
      intro hc
      cases hc
      exact absurd (hdigits '-' List.mem_cons_self) (by decide)

theorem splitNumber_append (hword : IsNumeral word) (hrest : EndsNumber rest)
    (hminus : rest.head? ≠ some '-') : splitNumber (word ++ rest) = (word, rest) := by
  cases hword with
  | @whole sign digits hsign hdigits =>
      have hbody := head?_ne_minus hdigits hminus
      rw [List.append_assoc, splitNumber_append_sign hsign hbody, splitUnsigned_whole hdigits hrest]
  | @fraction sign digits decimals hsign hdigits hdecimals =>
      have hpoint : ('.' :: (decimals ++ rest)).head? ≠ some '-' := by
        rw [List.head?_cons]
        decide
      have hbody := head?_ne_minus hdigits hpoint
      have hassoc : sign ++ digits ++ '.' :: decimals ++ rest =
          sign ++ (digits ++ '.' :: (decimals ++ rest)) := by
        simp
      rw [hassoc, splitNumber_append_sign hsign hbody,
        splitUnsigned_fraction hdigits hdecimals hrest]

theorem numberLiteral_append {n : Number} (hword : IsNumeral word)
    (hn : Number.ofText? word = some n) (hrest : EndsNumber rest)
    (hminus : rest.head? ≠ some '-') : numberLiteral (word ++ rest) = .ok (n, rest) := by
  rw [numberLiteral, splitNumber_append hword hrest hminus]
  dsimp only
  rw [hn]

theorem exists_decimal {digits fraction : Text} (hdigits : Digits digits)
    (hfraction : fraction = [] ∨ ∃ decimals, Digits decimals ∧ fraction = '.' :: decimals)
    (hdigit : ∃ c ∈ digits ++ fraction, c.isDigit) :
    ∃ d, Decimal.ofText? (digits ++ fraction) = some d := by
  have hstop : ∀ c ∈ fraction.head?, ¬ c.isDigit := by
    intro c hc
    rcases hfraction with rfl | ⟨decimals, _, rfl⟩
    · cases hc
    · cases hc
      decide
  have ⟨htake, hdrop⟩ := span_append hdigits hstop
  have ⟨c, hc, hcdigit⟩ := hdigit
  unfold Decimal.ofText?
  rw [htake, hdrop]
  rcases hfraction with rfl | ⟨decimals, hdecimals, rfl⟩
  · have hne : digits ≠ [] := by
      rintro rfl
      cases hc
    exact ⟨_, if_neg fun h => hne h.1⟩
  · have hne : ¬ (digits = [] ∧ decimals = []) := by
      rintro ⟨rfl, rfl⟩
      rw [List.mem_singleton.mp hc] at hcdigit
      exact absurd hcdigit (by decide)
    have hend : ∀ c ∈ ([] : Text).head?, ¬ c.isDigit := by
      intro c hc
      cases hc
    have ⟨htake', hdrop'⟩ := span_append hdecimals hend
    rw [List.append_nil] at htake' hdrop'
    simp only [htake', hdrop']
    rw [if_neg hne]
    exact ⟨_, rfl⟩

theorem splitSign_append {sign body : Text} (hsign : sign = [] ∨ sign = ['-'])
    (hbody : ∀ c ∈ body.head?, c.isDigit ∨ c = '.') : (Decimal.splitSign (sign ++ body)).2 = body := by
  rcases hsign with rfl | rfl
  · rw [List.nil_append]
    unfold Decimal.splitSign
    split
    next => exact absurd (hbody '-' rfl) (by decide)
    next => exact absurd (hbody '+' rfl) (by decide)
    next => rfl
  · rfl

theorem IsNumeral.exists_parts {word : Text} (h : IsNumeral word) :
    ∃ sign digits fraction, (sign = [] ∨ sign = ['-']) ∧ Digits digits ∧
      (fraction = [] ∨ ∃ decimals, Digits decimals ∧ fraction = '.' :: decimals) ∧
      word = sign ++ (digits ++ fraction) := by
  cases h with
  | whole hsign hdigits => exact ⟨_, _, [], hsign, hdigits, .inl rfl, by rw [List.append_nil]⟩
  | fraction hsign hdigits hdecimals =>
      exact ⟨_, _, _, hsign, hdigits, .inr ⟨_, hdecimals, rfl⟩, List.append_assoc ..⟩

/-- A numeral with a digit stands for a number. -/
theorem exists_number {word : Text} (hword : IsNumeral word) (hdigit : ∃ c ∈ word, c.isDigit) :
    ∃ n, Number.ofText? word = some n := by
  have hread : ∃ d, Decimal.ofText? (Decimal.splitSign word).2 = some d := by
    obtain ⟨sign, digits, fraction, hsign, hdigits, hfraction, rfl⟩ := hword.exists_parts
    have hhead : ∀ c ∈ (digits ++ fraction).head?, c.isDigit ∨ c = '.' := by
      intro c hc
      match digits with
      | d :: ds =>
          cases hc
          exact .inl (hdigits c List.mem_cons_self)
      | [] =>
          rcases hfraction with rfl | ⟨decimals, _, rfl⟩
          · cases hc
          · cases hc
            exact .inr rfl
    have hbody : ∃ c ∈ digits ++ fraction, c.isDigit := by
      have ⟨c, hc, hcdigit⟩ := hdigit
      rcases List.mem_append.mp hc with hc | hc
      · rcases hsign with rfl | rfl
        · cases hc
        · rw [List.mem_singleton.mp hc] at hcdigit
          exact absurd hcdigit (by decide)
      · exact ⟨c, hc, hcdigit⟩
    rw [splitSign_append hsign hhead]
    exact exists_decimal hdigits hfraction hbody
  have ⟨d, hd⟩ := hread
  unfold Number.ofText?
  dsimp only
  rw [hd]
  split
  · exact ⟨_, rfl⟩
  · split
    · exact ⟨_, rfl⟩
    · exact ⟨_, rfl⟩

theorem IsString.exists_head {s : String} (h : IsString word s) : ∃ cs, word = '"' :: cs := by
  cases h with
  | quotes => exact ⟨_, rfl⟩

theorem index?_eq {digits : Text} (hne : digits ≠ []) (hdigits : Digits digits)
    (hlt : Nat.ofDigitChars 10 digits 0 < 2 ^ 64) :
    index? digits = some (Nat.ofDigitChars 10 digits 0) := by
  unfold index?
  exact if_pos ⟨hne, List.all_eq_true.mpr hdigits, hlt⟩

theorem bracketSegment_append {segment : PathSegment} (hword : IsSubscript word segment)
    (hrest : ∀ c ∈ rest.head?, ¬ c.isDigit) :
    bracketSegment (word ++ rest) = .ok (segment, rest) := by
  cases hword with
  | key hstring =>
      have ⟨cs, hcs⟩ := hstring.exists_head
      have hhead : (word ++ rest).head? = some '"' := by
        rw [hcs]
        rfl
      rw [bracketSegment, if_pos hhead, stringLiteral_append hstring]
      rfl
  | index hne hdigits hlt =>
      have hhead : (word ++ rest).head? ≠ some '"' := by
        match word with
        | [] => exact absurd rfl hne
        | c :: cs =>
            intro hc
            cases hc
            exact absurd (hdigits '"' List.mem_cons_self) (by decide)
      have ⟨htake, hdrop⟩ := span_append hdigits hrest
      rw [bracketSegment, if_neg hhead]
      dsimp only
      rw [htake, hdrop, index?_eq hne hdigits hlt]

theorem IsPath.not_isIdentifierChar_head {segments : List PathSegment} (h : IsPath word segments)
    (hrest : ∀ c ∈ rest.head?, Ends c) : ∀ c ∈ (word ++ rest).head?, ¬ isIdentifierChar c := by
  intro c hc
  cases h with
  | nil => exact (hrest c hc).not_isIdentifierChar
  | dot =>
      cases hc
      decide
  | bracket =>
      cases hc
      decide

theorem IsSubscript.skipBlanks_append {segment : PathSegment} (h : IsSubscript word segment) :
    Text.skipBlanks (word ++ rest) = word ++ rest := by
  cases h with
  | key hstring =>
      have ⟨cs, hcs⟩ := hstring.exists_head
      rw [hcs]
      exact skipBlanks_cons (by decide)
  | index hne hdigits _ =>
      match word with
      | [] => exact absurd rfl hne
      | c :: cs =>
          have hc := hdigits c List.mem_cons_self
          exact skipBlanks_cons (not_isBlank_of_isIdentifierChar (isIdentifierChar_of_isDigit hc))

theorem pathRest_append {segments read : List PathSegment} {fuel : Nat} (h : IsPath word segments)
    (hrest : ∀ c ∈ rest.head?, Ends c) (hfuel : word.length ≤ fuel) :
    pathRest fuel read (word ++ rest) = .ok (read.reverse ++ segments, rest) := by
  induction h generalizing read fuel with
  | nil =>
      cases fuel with
      | zero => simp [pathRest]
      | succ fuel =>
          rw [List.nil_append, pathRest, List.append_nil]
          · rintro cs rfl
            exact absurd rfl (hrest '.' rfl).ne.1
          · rintro cs rfl
            exact absurd rfl (hrest '[' rfl).ne.2
  | @dot name text segments hname htext ih =>
      cases fuel with
      | zero => cases hfuel
      | succ fuel =>
          have hlength : text.length ≤ fuel := by
            simp only [List.length_append, List.length_cons] at hfuel
            omega
          have hidentifier := identifier_append hname (htext.not_isIdentifierChar_head hrest)
          rw [List.cons_append, List.cons_append, List.append_assoc, pathRest, hidentifier]
          exact (ih hlength).trans (by simp)
  | @bracket before inside after text segment segments hbefore hinside hafter _ ih =>
      cases fuel with
      | zero => cases hfuel
      | succ fuel =>
          have hlength : text.length ≤ fuel := by
            simp only [List.length_append, List.length_cons] at hfuel
            omega
          have hassoc : '[' :: before ++ inside ++ after ++ ']' :: text ++ rest =
              '[' :: (before ++ (inside ++ (after ++ ']' :: (text ++ rest)))) := by
            simp
          have hclose : Ends ']' := by decide
          have hdigit : ∀ c ∈ (after ++ ']' :: (text ++ rest)).head?, ¬ c.isDigit := fun c hc hdigit =>
            (ends_head?_blanks_append hafter hclose c hc).not_isIdentifierChar
              (isIdentifierChar_of_isDigit hdigit)
          have hsegment := bracketSegment_append hinside hdigit
          rw [hassoc, pathRest, skipBlanks_append hbefore, hinside.skipBlanks_append, hsegment]
          change (do
            let rest ← expectChar ']' (Text.skipBlanks (after ++ ']' :: (text ++ rest)))
            pathRest fuel (segment :: read) rest) = _
          rw [skipBlanks_append hafter, skipBlanks_cons (by decide)]
          exact (ih hlength).trans (by simp)

theorem path_append {name : Text} {segments : List PathSegment} (hname : IsIdentifier name)
    (h : IsPath word segments) (hrest : ∀ c ∈ rest.head?, Ends c) :
    path (name ++ (word ++ rest)) = .ok (.key (String.ofList name) :: segments, rest) := by
  have hidentifier := identifier_append hname (h.not_isIdentifierChar_head hrest)
  rw [path, hidentifier]
  exact pathRest_append h hrest (by simp)

end TaggedText.Grammar
