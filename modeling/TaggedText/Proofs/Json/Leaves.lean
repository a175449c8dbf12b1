import TaggedText.Json.Printer
import TaggedText.Json.Reader
import TaggedText.Proofs.Grammar.Words

/-!
# Strings and integers in JSON texts

Every string is read back from its quoted form: each character comes back from its escape. An
integer of at most 64 bits is read back from its digits, where no digit, point or exponent follows.
-/
namespace TaggedText.Json

variable {c : Char} {read rest : Text} {n : Nat}

theorem hexValue?_hexDigit (n : Nat) : hexValue? (hexDigit n) = some (n % 16) := by
  have hdigits : ∀ d < 16, hexValue? (Nat.digitChar d) = some d := by decide
  exact hdigits (n % 16) (Nat.mod_lt n (by decide))

/-- Two digits suffice for a control. -/
theorem codeUnit?_hexDigit (hn : n < 256) :
    codeUnit? '0' '0' (hexDigit (n / 16)) (hexDigit n) = some n := by
  have hzero : hexValue? '0' = some 0 := by decide
  simp only [codeUnit?, hzero, hexValue?_hexDigit, Option.bind_eq_bind, Option.bind_some,
    Option.pure_def, Option.some.injEq]
  omega

/-- A character is read back from its form inside a string. -/
theorem stringRest_escapeChar (c : Char) (read rest : Text) :
    stringRest read (escapeChar c ++ rest) = stringRest (c :: read) rest := by
  by_cases hletter : c ∈ ['"', '\\', '\x08', '\x0c', '\n', '\r', '\t']
  · simp only [List.mem_cons, List.not_mem_nil, or_false] at hletter
    rcases hletter with rfl | rfl | rfl | rfl | rfl | rfl | rfl
    all_goals simp [escapeChar, stringRest, unescape?]
  · simp only [List.mem_cons, List.not_mem_nil, or_false, not_or] at hletter
    obtain ⟨hquote, hbackslash, hb, hf, hn, hr, ht⟩ := hletter
    by_cases hcontrol : c.toNat < 0x20
    · have hunit : codeUnit? '0' '0' (hexDigit (c.toNat / 16)) (hexDigit c.toNat) =
          some c.toNat := codeUnit?_hexDigit (Nat.lt_trans hcontrol (by decide))
      have hlow : ¬ 0xD800 ≤ c.toNat := by omega
      have hhigh : ¬ 0xDC00 ≤ c.toNat := by omega
      simp [escapeChar, hquote, hbackslash, hb, hf, hn, hr, ht, hcontrol, stringRest, hunit, hlow,
        hhigh]
    · simp [escapeChar, hquote, hbackslash, hb, hf, hn, hr, ht, hcontrol, stringRest]

theorem stringRest_flatMap_escapeChar (content read rest : Text) :
    stringRest read (content.flatMap escapeChar ++ '"' :: rest) =
      some (String.ofList (read.reverse ++ content), rest) := by
  induction content generalizing read with
  | nil => simp [stringRest]
  | cons c cs ih =>
      rw [List.flatMap_cons, List.append_assoc, stringRest_escapeChar, ih]
      simp

/-- A string is read back from its quoted form. -/
theorem stringRest_quote (s : String) (rest : Text) :
    ∃ cs, quote s = '"' :: cs ∧ stringRest [] (cs ++ rest) = some (s, rest) := by
  refine ⟨_, rfl, ?_⟩
  have hread := stringRest_flatMap_escapeChar s.toList [] rest
  rw [List.reverse_nil, List.nil_append, String.ofList_toList] at hread
  rw [List.append_assoc]
  exact hread

/-- What may follow an integer. -/
def EndsInteger (rest : Text) : Prop :=
  ∀ c ∈ rest.head?, ¬ c.isDigit ∧ c ≠ '.' ∧ c ≠ 'e' ∧ c ≠ 'E'

theorem le_ofDigitChars (digits : Text) (n : Nat) : n ≤ Nat.ofDigitChars 10 digits n := by
  induction digits generalizing n with
  | nil => exact Nat.le_refl n
  | cons d ds ih =>
      have hnext := ih (10 * n + (d.toNat - '0'.toNat))
      have hle : n ≤ Nat.ofDigitChars 10 ds (10 * n + (d.toNat - '0'.toNat)) := by omega
      exact hle

/-- Digits are gathered to the end if the number fits. -/
theorem gather_eq {digits : Text} (h : Nat.ofDigitChars 10 digits n < wordLimit) :
    gather n digits = (Nat.ofDigitChars 10 digits n, digits.length) := by
  induction digits generalizing n with
  | nil => rfl
  | cons d ds ih =>
      have hnext : 10 * n + (d.toNat - '0'.toNat) < wordLimit :=
        Nat.lt_of_le_of_lt (le_ofDigitChars ds _) h
      have hrest : gather (10 * n + (d.toNat - '0'.toNat)) ds =
          (Nat.ofDigitChars 10 ds (10 * n + (d.toNat - '0'.toNat)), ds.length) := ih h
      rw [gather]
      dsimp only
      rw [if_pos hnext, hrest]
      rfl

theorem isDigit_of_mem_toDigits (h : c ∈ Nat.toDigits 10 n) : c.isDigit :=
  Nat.isDigit_of_mem_toDigits (by decide) (by decide) h

theorem exists_digit_cons (n : Nat) : ∃ c cs, Nat.toDigits 10 n = c :: cs ∧ c.isDigit := by
  have ⟨c, cs, hcs⟩ := List.exists_cons_of_ne_nil (@Nat.toDigits_ne_nil n 10)
  exact ⟨c, cs, hcs, isDigit_of_mem_toDigits (hcs ▸ List.mem_cons_self)⟩

/-- The digits of a number that is not zero do not begin with a zero. -/
theorem exists_toDigits_eq_cons (hn : 0 < n) : ∃ c cs, Nat.toDigits 10 n = c :: cs ∧ c ≠ '0' := by
  induction n using Nat.strongRecOn with
  | ind n ih =>
      by_cases hlt : n < 10
      · have hdigits : ∀ d < 10, 0 < d → Nat.digitChar d ≠ '0' := by decide
        exact ⟨n.digitChar, [], Nat.toDigits_of_lt_base hlt, hdigits n hlt hn⟩
      · have hle : 10 ≤ n := Nat.le_of_not_lt hlt
        have ⟨c, cs, hcs, hc⟩ := ih (n / 10) (by omega) (by omega)
        refine ⟨c, cs ++ [(n % 10).digitChar], ?_, hc⟩
        rw [Nat.toDigits_of_base_le (by decide) hle, hcs, List.cons_append]

theorem EndsInteger.span (h : EndsInteger rest) (n : Nat) :
    (Nat.toDigits 10 n ++ rest).takeWhile Char.isDigit = Nat.toDigits 10 n ∧
      (Nat.toDigits 10 n ++ rest).dropWhile Char.isDigit = rest :=
  Grammar.span_append (fun _ => isDigit_of_mem_toDigits) fun c hc => (h c hc).1

theorem wholeDigits?_toDigits (n : Nat) (hrest : EndsInteger rest) :
    wholeDigits? (Nat.toDigits 10 n ++ rest) = some (Nat.toDigits 10 n, rest) := by
  rcases Nat.eq_zero_or_pos n with rfl | hn
  · have hnone : ([] ++ rest).takeWhile Char.isDigit = [] :=
      (Grammar.span_append (fun _ h => absurd h List.not_mem_nil) fun c hc => (hrest c hc).1).1
    have hempty : (rest.takeWhile Char.isDigit).isEmpty = true := by
      rw [List.isEmpty_iff]
      exact hnone
    change (if (rest.takeWhile Char.isDigit).isEmpty then some (['0'], rest) else none) = _
    rw [if_pos hempty]
    rfl
  · have ⟨c, cs, hcs, hc⟩ := exists_toDigits_eq_cons hn
    have ⟨htake, hdrop⟩ := hrest.span n
    rw [hcs, List.cons_append] at htake hdrop ⊢
    rw [wholeDigits?, someDigits?, htake, hdrop]
    · rfl
    · exact fun _ heq => hc (List.cons.inj heq).1

theorem numberParts?_toDigits (n : Nat) (hrest : EndsInteger rest) :
    numberParts? (Nat.toDigits 10 n ++ rest) = some (⟨Nat.toDigits 10 n, none, none⟩, rest) := by
  have hfraction : fractionDigits? rest = some (none, rest) := by
    unfold fractionDigits?
    split
    next => exact absurd rfl (hrest '.' rfl).2.1
    next => rfl
  have hexponent : exponentDigits? rest = some (none, rest) := by
    match rest with
    | [] => rfl
    | c :: cs =>
        have ⟨_, _, hlower, hupper⟩ := hrest c rfl
        rw [exponentDigits?, if_neg (not_or.mpr ⟨hlower, hupper⟩)]
  rw [numberParts?, wholeDigits?_toDigits n hrest]
  simp only [Option.bind_eq_bind, Option.bind_some, hfraction, hexponent]
  rfl

/-- An integer is read back from its digits, the sign aside. -/
theorem toJson?_toDigits (negative : Bool) (hn : n < wordLimit) (hzero : negative = true → n ≠ 0) :
    NumberParts.toJson? ⟨Nat.toDigits 10 n, none, none⟩ negative =
      some (.integer (if negative then -(n : Int) else n)) := by
  have hvalue : Nat.ofDigitChars 10 (Nat.toDigits 10 n) 0 = n := Nat.ofDigitChars_ten_toDigits
  have hgather : gather 0 (Nat.toDigits 10 n) = (n, (Nat.toDigits 10 n).length) := by
    rw [gather_eq (by rwa [hvalue]), hvalue]
  rw [NumberParts.toJson?]
  dsimp only
  rw [hgather]
  cases negative with
  | false => simp
  | true => simp [hzero rfl]

/-- An integer is read back from its text. -/
theorem readNumber_integerText {i : Int} (hi : i.natAbs < wordLimit) (hrest : EndsInteger rest) :
    readNumber (integerText i ++ rest) = some (.integer i, rest) := by
  by_cases hnegative : i < 0
  · have hparts := numberParts?_toDigits i.natAbs hrest
    have hjson := toJson?_toDigits true hi fun _ => by omega
    have hvalue : -(i.natAbs : Int) = i := by omega
    rw [if_pos rfl, hvalue] at hjson
    rw [integerText, if_pos hnegative]
    simp only [List.cons_append, List.nil_append, readNumber, hparts, hjson, Option.bind_eq_bind,
      Option.bind_some]
    rfl
  · have hparts := numberParts?_toDigits i.natAbs hrest
    have hjson := toJson?_toDigits false hi nofun
    have hvalue : (i.natAbs : Int) = i := by omega
    rw [if_neg Bool.false_ne_true, hvalue] at hjson
    have ⟨c, cs, hcs, hdigit⟩ := exists_digit_cons i.natAbs
    rw [integerText, if_neg hnegative, List.nil_append, readNumber]
    · simp only [hparts, hjson, Option.bind_eq_bind, Option.bind_some]
      rfl
    · intro rest' heq
      rw [hcs] at heq
      obtain rfl := (List.cons.inj heq).1
      exact absurd hdigit (by decide)

theorem exists_integerText_eq_cons (i : Int) :
    ∃ c cs, integerText i = c :: cs ∧ (c = '-' ∨ c.isDigit) := by
  by_cases hnegative : i < 0
  · exact ⟨'-', _, by rw [integerText, if_pos hnegative]; rfl, .inl rfl⟩
  · have ⟨c, cs, hcs, hdigit⟩ := exists_digit_cons i.natAbs
    exact ⟨c, cs, by rw [integerText, if_neg hnegative, List.nil_append, hcs], .inr hdigit⟩

end TaggedText.Json
