import TaggedText.Proofs.Grammar.Words

/-!
# Every value of the language is read

A text that denotes a value is read as that value if what follows ends it. The induction is on the
derivation. It needs what follows in each case, and that the fuel of the reader is more than the length
of the text, which is thus more than the depth of the value and more than the number of its items.

A value is no argument's name, because no equals sign follows it.
-/
namespace TaggedText.Grammar

variable {text rest word : Text} {c : Char}

/-- What may follow a value: it is no part of the value, nor makes it the name of an argument. -/
structure Follows (rest : Text) : Prop where
  ends : ∀ c ∈ rest.head?, Ends c
  noName : rest.skipBlanks.head? ≠ some '='

theorem follows_blanks_append {blanks : Text} {d : Char} (hblanks : Blanks blanks) (hd : Ends d)
    (hblank : ¬ Text.isBlank d) : Follows (blanks ++ d :: rest) where
  ends := ends_head?_blanks_append hblanks hd
  noName := by
    rw [skipBlanks_append hblanks, skipBlanks_cons hblank]
    intro heq
    cases heq
    rcases hd with hd | hd | hd | hd | hd
    · exact hblank hd
    all_goals cases hd

/-- Whether a value can begin with a character. -/
def StartsItem (c : Char) : Prop :=
  c = '"' ∨ c = '[' ∨ c = '\x7b' ∨ c = '$' ∨ startsNumber c ∨ isIdentifierStart c

instance (c : Char) : Decidable (StartsItem c) :=
  inferInstanceAs (Decidable (_ ∨ _))

theorem StartsItem.not_ends (h : StartsItem c) : ¬ Ends c := by
  rcases h with rfl | rfl | rfl | rfl | h | h
  · decide
  · decide
  · decide
  · decide
  · intro hends
    apply hends.not_isIdentifierChar
    simp only [startsNumber, Bool.or_eq_true, decide_eq_true_eq] at h
    rcases h with rfl | h
    · decide
    · exact isIdentifierChar_of_isDigit h
  · exact fun hends => hends.not_isIdentifierChar (isIdentifierChar_of_isIdentifierStart h)

theorem startsItem_of_isIdentifierStart (h : isIdentifierStart c) : StartsItem c :=
  .inr <| .inr <| .inr <| .inr <| .inr h

theorem startsItem_of_startsNumber (h : startsNumber c) : StartsItem c :=
  .inr <| .inr <| .inr <| .inr <| .inl h

/-- A bracket that closes a list. -/
def Closes (c : Char) : Prop :=
  c = ']' ∨ c = '\x7d' ∨ c = ')'

theorem Closes.ends (h : Closes c) : Ends c := by
  rcases h with rfl | rfl | rfl
  all_goals decide

theorem Closes.not_isBlank (h : Closes c) : ¬ Text.isBlank c := by
  rcases h with rfl | rfl | rfl
  all_goals decide

theorem Closes.ne_comma (h : Closes c) : c ≠ ',' := by
  rcases h with rfl | rfl | rfl
  all_goals decide

section

variable {σ : Type} {close : Char} {item : σ → Text → Except Fault (σ × Text)}

theorem Enclosed.length_le {items : List Text} (h : Enclosed close items word) :
    items.length ≤ word.length := by
  induction h with
  | nil => exact Nat.zero_le _
  | last => simp; omega
  | cons _ _ _ ih =>
      simp only [List.length_append, List.length_cons]
      omega

theorem Enclosed.length_lt_of_mem {items : List Text} (h : Enclosed close items word) {i : Text}
    (hi : i ∈ items) : i.length < word.length := by
  induction h with
  | nil => cases hi
  | last =>
      rw [List.mem_singleton.mp hi]
      simp only [List.length_append, List.length_cons]
      omega
  | cons _ _ _ ih =>
      simp only [List.length_append, List.length_cons]
      rcases List.mem_cons.mp hi with rfl | hi
      · omega
      · have hlt := ih hi
        omega

theorem separated_close {blanks : Text} {fuel : Nat} {read : σ} (hclose : Closes close)
    (hblanks : Blanks blanks) :
    separated close item (fuel + 1) read (blanks ++ close :: rest) = .ok (read, rest) := by
  rw [separated, skipBlanks_append hblanks, skipBlanks_cons hclose.not_isBlank]
  exact if_pos rfl

/-- One item with the sign behind it. -/
theorem separated_item (fuel : Nat) {before source after : Text} {d : Char} {read read' : σ}
    (hclose : Closes close) (hbefore : Blanks before) (hafter : Blanks after)
    (hd : ¬ Text.isBlank d)
    (hstart : ∃ c cs, source = c :: cs ∧ StartsItem c)
    (hitem : item read (source ++ (after ++ d :: rest)) = .ok (read', after ++ d :: rest)) :
    separated close item (fuel + 1) read (before ++ source ++ after ++ d :: rest) =
      if d = ',' then separated close item fuel read' rest
      else if d = close then .ok (read', rest)
      else .error (.atHead (.expected close (some d)) (d :: rest)) := by
  obtain ⟨c, cs, rfl, hc⟩ := hstart
  have hassoc : before ++ c :: cs ++ after ++ d :: rest =
      before ++ (c :: (cs ++ (after ++ d :: rest))) := by
    simp
  have hhead : (c :: (cs ++ (after ++ d :: rest))).head? ≠ some close := by
    intro heq
    cases heq
    exact hc.not_ends hclose.ends
  have hskip : Text.skipBlanks (after ++ d :: rest) = d :: rest := by
    rw [skipBlanks_append hafter, skipBlanks_cons hd]
  rw [List.cons_append] at hitem
  rw [hassoc, separated, skipBlanks_append hbefore,
    skipBlanks_cons fun hblank => hc.not_ends (.inl hblank)]
  dsimp only
  rw [if_neg hhead, hitem]
  change (if (Text.skipBlanks (after ++ d :: rest)).head? = some ',' then _
    else if (Text.skipBlanks (after ++ d :: rest)).head? = some close then _ else _) = _
  rw [hskip]
  simp only [List.head?_cons, List.tail_cons, Option.some.injEq]

theorem separated_of_enclosed (add : σ → Item → σ) (hclose : Closes close) {items : List Item}
    {fuel : Nat} {read : σ}
    (hstart : ∀ i ∈ items, ∃ c cs, i.source = c :: cs ∧ StartsItem c)
    (hitem : ∀ i ∈ items, ∀ read rest, Follows rest →
      item read (i.source ++ rest) = .ok (add read i, rest))
    (h : Enclosed close (items.map Item.source) word) (hfuel : items.length < fuel) :
    separated close item fuel read (word ++ rest) = .ok (items.foldl add read, rest) := by
  generalize hsources : items.map Item.source = sources at h
  obtain ⟨fuel, rfl⟩ : ∃ n, fuel = n + 1 := ⟨fuel - 1, by omega⟩
  induction h generalizing items fuel read with
  | @nil blanks hblanks =>
      obtain rfl := List.map_eq_nil_iff.mp hsources
      rw [List.append_assoc]
      exact separated_close hclose hblanks
  | @last before source after hbefore hafter =>
      obtain ⟨i, rfl, rfl⟩ := List.map_eq_singleton_iff.mp hsources
      have hfollows : Follows (after ++ close :: rest) :=
        follows_blanks_append hafter hclose.ends hclose.not_isBlank
      have hread := hitem i List.mem_cons_self read _ hfollows
      have hstep := separated_item fuel hclose hbefore hafter hclose.not_isBlank
        (hstart i List.mem_cons_self) hread
      rw [if_neg hclose.ne_comma, if_pos rfl] at hstep
      rw [List.append_assoc (before ++ i.source ++ after)]
      exact hstep
  | @cons before source after word sources hbefore hafter henclosed ih =>
      obtain ⟨i, items, rfl, rfl, rfl⟩ := List.map_eq_cons_iff.mp hsources
      have hblank : ¬ Text.isBlank ',' := by decide
      have hfollows : Follows (after ++ ',' :: (word ++ rest)) :=
        follows_blanks_append hafter (by decide) hblank
      have hread := hitem i List.mem_cons_self read _ hfollows
      have hstep := separated_item fuel hclose hbefore hafter hblank
        (hstart i List.mem_cons_self) hread
      rw [if_pos rfl] at hstep
      rw [List.append_assoc (before ++ i.source ++ after), List.cons_append, hstep]
      have ⟨_, hstart⟩ := List.forall_mem_cons.mp hstart
      have ⟨_, hitem⟩ := List.forall_mem_cons.mp hitem
      obtain ⟨fuel, rfl⟩ : ∃ n, fuel = n + 1 := ⟨fuel - 1, by simp at hfuel; omega⟩
      exact ih hstart hitem rfl fuel (by simpa using hfuel)

end

theorem IsIdentifier.exists_head (h : IsIdentifier word) :
    ∃ c cs, word = c :: cs ∧ isIdentifierStart c := by
  match word with
  | [] => exact h.elim
  | c :: cs => exact ⟨c, cs, rfl, (isIdentifier_cons_iff.mp h).1⟩

theorem Denotes.exists_head {v : Value} (h : Denotes word v) :
    ∃ c cs, word = c :: cs ∧ StartsItem c := by
  cases h with
  | null => exact ⟨'n', _, rfl, by decide⟩
  | true => exact ⟨'t', _, rfl, by decide⟩
  | false => exact ⟨'f', _, rfl, by decide⟩
  | string hstring =>
      have ⟨cs, hcs⟩ := hstring.exists_head
      exact ⟨'"', cs, hcs, by decide⟩
  | number _ hstart => exact ⟨_, _, rfl, startsItem_of_startsNumber hstart⟩
  | array => exact ⟨'[', _, rfl, by decide⟩
  | map => exact ⟨'\x7b', _, rfl, by decide⟩
  | reference => exact ⟨'$', _, rfl, by decide⟩
  | call hname =>
      obtain ⟨c, cs, rfl, hc⟩ := hname.exists_head
      exact ⟨c, _, rfl, startsItem_of_isIdentifierStart hc⟩

theorem IsName.exists_head {name : Option String} (h : IsName word name) :
    ∃ c cs, word = c :: cs ∧ isIdentifierStart c := by
  cases h with
  | identifier hname =>
      obtain ⟨c, cs, rfl, hc⟩ := hname.exists_head
      exact ⟨c, _, rfl, hc⟩

theorem IsKey.exists_head {name : Option String} (h : IsKey word name) :
    ∃ c cs, word = c :: cs ∧ StartsItem c := by
  cases h with
  | identifier hname =>
      obtain ⟨c, cs, rfl, hc⟩ := hname.exists_head
      exact ⟨c, _, rfl, startsItem_of_isIdentifierStart hc⟩
  | string hstring =>
      have ⟨cs, hcs⟩ := hstring.exists_head
      rw [hcs]
      exact ⟨'"', _, rfl, by decide⟩

/-- Blanks before a value are skipped, and no more. -/
theorem Denotes.skipBlanks_append {v : Value} {blanks : Text} (h : Denotes word v)
    (hblanks : Blanks blanks) : Text.skipBlanks (blanks ++ (word ++ rest)) = word ++ rest := by
  obtain ⟨c, cs, rfl, hc⟩ := h.exists_head
  rw [Grammar.skipBlanks_append hblanks]
  exact skipBlanks_cons fun hblank => hc.not_ends (.inl hblank)

theorem expectChar_skipBlanks {blanks : Text} (hblanks : Blanks blanks) (hc : ¬ Text.isBlank c) :
    expectChar c (Text.skipBlanks (blanks ++ c :: rest)) = .ok rest := by
  rw [skipBlanks_append hblanks, skipBlanks_cons hc]
  exact if_pos rfl

theorem startsAttribute_append {name : Option String} (h : IsName word name) :
    startsAttribute (word ++ rest) := by
  cases h with
  | @identifier name before after hname hbefore hafter =>
      have hidentifier : identifier? (name ++ (before ++ '=' :: (after ++ rest))) = _ :=
        identifier?_append hname (not_isIdentifierChar_head?_blanks_append hbefore (by decide))
      have hassoc : name ++ before ++ '=' :: after ++ rest =
          name ++ (before ++ '=' :: (after ++ rest)) := by
        simp
      rw [hassoc, startsAttribute, hidentifier]
      dsimp only
      rw [skipBlanks_append hbefore, skipBlanks_cons (by decide)]
      rfl

theorem not_startsAttribute_cons (h : ¬ isIdentifierStart c) : ¬ startsAttribute (c :: rest) := by
  rw [startsAttribute, identifier?, if_neg h]
  decide

theorem not_startsAttribute_append (hword : IsIdentifier word)
    (hrest : ∀ c ∈ rest.head?, ¬ isIdentifierChar c) (hequals : rest.skipBlanks.head? ≠ some '=') :
    ¬ startsAttribute (word ++ rest) := by
  rw [startsAttribute, identifier?_append hword hrest]
  simpa using hequals

theorem not_isIdentifierStart_of_startsNumber (h : startsNumber c) : ¬ isIdentifierStart c := by
  simp only [startsNumber, isIdentifierStart, Char.isAlpha, Char.isDigit, Char.isUpper,
    Char.isLower, Bool.or_eq_true, Bool.and_eq_true, decide_eq_true_eq,
    UInt32.le_iff_toNat_le] at h ⊢
  rcases h with rfl | ⟨hlow, hhigh⟩
  · decide
  · rintro ((⟨h, _⟩ | ⟨h, _⟩) | rfl)
    · exact absurd (h.trans hhigh) (by decide)
    · exact absurd (h.trans hhigh) (by decide)
    · exact absurd hhigh (by decide)

/-- A value is not taken for the name of an argument. -/
theorem Denotes.not_startsAttribute {v : Value} (h : Denotes word v) (hrest : Follows rest) :
    ¬ startsAttribute (word ++ rest) := by
  have hends : ∀ c ∈ rest.head?, ¬ isIdentifierChar c := fun c hc =>
    (hrest.ends c hc).not_isIdentifierChar
  cases h with
  | null => exact not_startsAttribute_append (by decide) hends hrest.noName
  | true => exact not_startsAttribute_append (by decide) hends hrest.noName
  | false => exact not_startsAttribute_append (by decide) hends hrest.noName
  | string hstring =>
      have ⟨cs, hcs⟩ := hstring.exists_head
      rw [hcs]
      exact not_startsAttribute_cons (by decide)
  | number _ hstart =>
      exact not_startsAttribute_cons (not_isIdentifierStart_of_startsNumber hstart)
  | array => exact not_startsAttribute_cons (by decide)
  | map => exact not_startsAttribute_cons (by decide)
  | reference => exact not_startsAttribute_cons (by decide)
  | @call name items text hname =>
      rw [List.append_assoc]
      apply not_startsAttribute_append hname
      · rintro c hc
        cases hc
        decide
      · rw [List.cons_append, skipBlanks_cons (by decide), List.head?_cons]
        decide

section

variable {value : Text → Except Fault (Value × Text)} {i : Item}

theorem arrayItem_append {read : List Value} (hlabel : IsBare i.label i.name)
    (hvalue : value (i.text ++ rest) = .ok (i.value, rest)) :
    arrayItem value read (i.source ++ rest) = .ok (i.value :: read, rest) := by
  have ⟨label, name, text, v⟩ := i
  cases hlabel
  rw [arrayItem, Item.source, List.nil_append, hvalue]
  rfl

theorem mapItem_of_key {read : Entries Value} {key : String} {behind after : Text} {v : Value}
    (hkey : (if text.head? = some '"' then stringLiteral text else identifier text) =
      .ok (key, behind)) (hcolon : expectChar ':' behind.skipBlanks = .ok after)
    (hvalue : value after.skipBlanks = .ok (v, rest)) :
    mapItem value read text = .ok (read.insert key v, rest) := by
  rw [mapItem_eq, hkey]
  change (expectChar ':' behind.skipBlanks >>= _) = _
  rw [hcolon]
  change (value after.skipBlanks >>= _) = _
  rw [hvalue]
  rfl

theorem mapItem_append {read : Entries Value} (hlabel : IsKey i.label i.name)
    (hdenotes : Denotes i.text i.value) (hvalue : value (i.text ++ rest) = .ok (i.value, rest)) :
    mapItem value read (i.source ++ rest) = .ok (Item.addNamed read i, rest) := by
  have ⟨label, name, text, v⟩ := i
  dsimp only [Item.source] at hlabel hdenotes hvalue ⊢
  cases hlabel with
  | @identifier key before after hkey hbefore hafter =>
      have hidentifier : identifier (key ++ (before ++ ':' :: (after ++ (text ++ rest)))) = _ :=
        identifier_append hkey (not_isIdentifierChar_head?_blanks_append hbefore (by decide))
      have hhead : (key ++ (before ++ ':' :: (after ++ (text ++ rest)))).head? ≠ some '"' := by
        obtain ⟨c, cs, rfl, hc⟩ := hkey.exists_head
        intro heq
        cases heq
        exact absurd hc (by decide)
      have hassoc : key ++ before ++ ':' :: after ++ text ++ rest =
          key ++ (before ++ ':' :: (after ++ (text ++ rest))) := by
        simp
      rw [hassoc]
      apply mapItem_of_key
      · rw [if_neg hhead, hidentifier]
      · exact expectChar_skipBlanks hbefore (by decide)
      · rw [hdenotes.skipBlanks_append hafter, hvalue]
  | @string word before after key hstring hbefore hafter =>
      have hhead : (word ++ (before ++ ':' :: (after ++ (text ++ rest)))).head? = some '"' := by
        have ⟨cs, hcs⟩ := hstring.exists_head
        rw [hcs]
        rfl
      have hassoc : word ++ before ++ ':' :: after ++ text ++ rest =
          word ++ (before ++ ':' :: (after ++ (text ++ rest))) := by
        simp
      rw [hassoc]
      apply mapItem_of_key
      · rw [if_pos hhead, stringLiteral_append hstring]
      · exact expectChar_skipBlanks hbefore (by decide)
      · rw [hdenotes.skipBlanks_append hafter, hvalue]

theorem callItem_of_name {read : Entries Value × Nat} {name : String} {behind after : Text} {v : Value}
    (hstart : startsAttribute text) (hname : identifier text = .ok (name, behind))
    (hequals : expectChar '=' behind.skipBlanks = .ok after)
    (hvalue : value after.skipBlanks = .ok (v, rest)) :
    callItem value read text = .ok ((read.1.insert name v, read.2), rest) := by
  rw [callItem, if_pos hstart, hname]
  change (expectChar '=' behind.skipBlanks >>= _) = _
  rw [hequals]
  change (value after.skipBlanks >>= _) = _
  rw [hvalue]
  rfl

/-- The name in front of a value, as the readers go through it. -/
theorem exists_steps_of_isName (rest : Text) {label : Text} {name : String} {v : Value}
    (h : IsName label (some name)) (hdenotes : Denotes text v) :
    ∃ behind after, identifier? (label ++ (text ++ rest)) = some (name, behind) ∧
      expectChar '=' behind.skipBlanks = .ok after ∧ after.skipBlanks = text ++ rest := by
  cases h with
  | @identifier key before after hkey hbefore hafter =>
      have hassoc : key ++ before ++ '=' :: after ++ (text ++ rest) =
          key ++ (before ++ '=' :: (after ++ (text ++ rest))) := by
        simp
      rw [hassoc]
      refine ⟨before ++ '=' :: (after ++ (text ++ rest)), after ++ (text ++ rest), ?_, ?_, ?_⟩
      · exact identifier?_append hkey (not_isIdentifierChar_head?_blanks_append hbefore (by decide))
      · exact expectChar_skipBlanks hbefore (by decide)
      · exact hdenotes.skipBlanks_append hafter

theorem callItem_append {read : Entries Value × Nat} (hlabel : IsOptionalName i.label i.name)
    (hdenotes : Denotes i.text i.value) (hrest : Follows rest)
    (hvalue : value (i.text ++ rest) = .ok (i.value, rest)) :
    callItem value read (i.source ++ rest) = .ok (Item.add read i, rest) := by
  have ⟨label, name, text, v⟩ := i
  dsimp only [Item.source] at hlabel hdenotes hvalue ⊢
  cases hlabel with
  | bare hbare =>
      cases hbare
      rw [callItem, List.nil_append, if_neg (hdenotes.not_startsAttribute hrest), hvalue]
      rfl
  | name hname =>
      rw [List.append_assoc]
      match name with
      | none => cases hname
      | some name =>
          have ⟨behind, after, hidentifier, hequals, hafter⟩ :=
            exists_steps_of_isName rest hname hdenotes
          apply callItem_of_name (startsAttribute_append hname)
          · rw [identifier, hidentifier]
          · exact hequals
          · rw [hafter, hvalue]

end

variable {fuel : Nat}

theorem value_string {s : String} (h : IsString word s) :
    value .plain (fuel + 1) (word ++ rest) = .ok (.string s, rest) := by
  have ⟨cs, hcs⟩ := h.exists_head
  have hread : stringLiteral (word ++ rest) = .ok (s, rest) := stringLiteral_append h
  rw [hcs, List.cons_append] at hread ⊢
  rw [value, if_pos rfl, hread]
  rfl

theorem value_number {cs : Text} {n : Number} (hword : IsNumeral (c :: cs)) (hstart : startsNumber c)
    (hn : Number.ofText? (c :: cs) = some n) (hrest : ∀ c ∈ rest.head?, Ends c) :
    value .plain (fuel + 1) (c :: cs ++ rest) = .ok (.number n, rest) := by
  have hends : EndsNumber rest := by
    intro d hd
    constructor
    · exact fun hdigit => (hrest d hd).not_isIdentifierChar (isIdentifierChar_of_isDigit hdigit)
    · exact (hrest d hd).ne.1
  have hminus : rest.head? ≠ some '-' := fun hd =>
    (hrest '-' hd).not_isIdentifierChar (by decide)
  have hnumber : (c = '-' || c.isDigit) = true := hstart
  have hread := numberLiteral_append hword hn hends hminus
  have hne : ∀ d, ¬ startsNumber d → c ≠ d := by
    rintro d hd rfl
    exact hd hstart
  rw [List.cons_append] at hread ⊢
  rw [value, if_neg (hne _ (by decide)), if_neg (hne _ (by decide)), if_neg (hne _ (by decide)),
    if_neg (hne _ (by decide)), if_pos hnumber, hread]
  rfl

/-- What an identifier is as a value, by the sign behind it. -/
theorem value_word (hword : IsIdentifier word) (hrest : ∀ c ∈ rest.head?, ¬ isIdentifierChar c) :
    value .plain (fuel + 1) (word ++ rest) =
      if String.ofList word = "true" then .ok (.bool true, rest)
      else if String.ofList word = "false" then .ok (.bool false, rest)
      else if String.ofList word = "null" then .ok (.null, rest)
      else if rest.head? = some '(' then do
        let (arguments, rest) ← bracketed ')' (callItem (value .plain fuel)) ([], 0) rest.tail
        return (.call (String.ofList word) arguments.1, rest)
      else .error ⟨.unknownIdentifier (String.ofList word), word ++ rest, rest⟩ := by
  have hread := identifier?_append hword hrest
  obtain ⟨c, cs, rfl, hc⟩ := hword.exists_head
  have hne : ∀ d, ¬ isIdentifierStart d → c ≠ d := by
    rintro d hd rfl
    exact hd hc
  have hnumber : ¬ (c = '-' || c.isDigit) = true := fun hd =>
    not_isIdentifierStart_of_startsNumber hd hc
  rw [List.cons_append] at hread ⊢
  rw [value, if_neg (hne _ (by decide)), if_neg (hne _ (by decide)), if_neg (hne _ (by decide)),
    if_neg (hne _ (by decide)), if_neg hnumber, hread]
  rfl

section

variable {items : List Item}

theorem exists_head_of_isOptionalName {i : Item} (hlabel : IsOptionalName i.label i.name)
    (hdenotes : Denotes i.text i.value) : ∃ c cs, i.source = c :: cs ∧ StartsItem c := by
  unfold Item.source
  cases hlabel with
  | bare hbare =>
      have ⟨label, name, text, v⟩ := i
      cases hbare
      exact hdenotes.exists_head
  | name hname =>
      have ⟨c, cs, hcs, hc⟩ := hname.exists_head
      rw [hcs]
      exact ⟨c, _, rfl, .inr (.inr (.inr (.inr (.inr hc))))⟩

theorem exists_head_of_isKey {i : Item} (hlabel : IsKey i.label i.name) :
    ∃ c cs, i.source = c :: cs ∧ StartsItem c := by
  have ⟨c, cs, hcs, hc⟩ := hlabel.exists_head
  rw [Item.source, hcs]
  exact ⟨c, _, rfl, hc⟩

/-- The fuel that is left for the items of a list is enough for each of them. -/
theorem value_items {close : Char} (henclosed : Enclosed close (items.map Item.source) word)
    (hfuel : word.length < fuel)
    (hvalue : ∀ i ∈ items, ∀ {rest : Text} {fuel : Nat}, Follows rest → i.text.length < fuel + 1 →
      value .plain (fuel + 1) (i.text ++ rest) = .ok (i.value, rest)) :
    ∀ i ∈ items, ∀ rest, Follows rest →
      value .plain fuel (i.text ++ rest) = .ok (i.value, rest) := by
  intro i hi rest hrest
  have hlt := henclosed.length_lt_of_mem (List.mem_map_of_mem hi)
  have hle : i.text.length ≤ i.source.length := by
    rw [Item.source, List.length_append]
    exact Nat.le_add_left ..
  obtain ⟨n, rfl⟩ : ∃ n, fuel = n + 1 := ⟨fuel - 1, by omega⟩
  exact hvalue i hi hrest (by omega)

theorem bracketed_of_enclosed {σ : Type} {item : σ → Text → Except Fault (σ × Text)} {read : σ}
    (add : σ → Item → σ) {close : Char} (hclose : Closes close)
    (hstart : ∀ i ∈ items, ∃ c cs, i.source = c :: cs ∧ StartsItem c)
    (hitem : ∀ i ∈ items, ∀ read rest, Follows rest →
      item read (i.source ++ rest) = .ok (add read i, rest))
    (h : Enclosed close (items.map Item.source) word) :
    bracketed close item read (word ++ rest) = .ok (items.foldl add read, rest) := by
  have hfuel : items.length < (word ++ rest).length + 1 := by
    have hle := h.length_le
    simp only [List.length_map, List.length_append] at hle ⊢
    omega
  exact separated_of_enclosed add hclose hstart hitem h hfuel

variable (hdenotes : ∀ i ∈ items, Denotes i.text i.value)
variable (hvalue : ∀ i ∈ items, ∀ rest, Follows rest →
  value .plain fuel (i.text ++ rest) = .ok (i.value, rest))

include hdenotes hvalue

theorem value_array (hlabels : ∀ i ∈ items, IsBare i.label i.name)
    (h : Enclosed ']' (items.map Item.source) word) :
    value .plain (fuel + 1) ('[' :: word ++ rest) = .ok (.array (items.map Item.value), rest) := by
  have hread : bracketed ']' (arrayItem (value .plain fuel)) [] (word ++ rest) = _ :=
    bracketed_of_enclosed (fun read i => i.value :: read) (.inl rfl)
      (fun i hi => exists_head_of_isOptionalName (.bare (hlabels i hi)) (hdenotes i hi))
      (fun i hi read rest hrest => arrayItem_append (hlabels i hi) (hvalue i hi rest hrest)) h
  rw [List.foldl_flip_cons_eq_append, List.append_nil] at hread
  change (bracketed ']' (arrayItem (value .plain fuel)) [] (word ++ rest) >>= _) = _
  rw [hread]
  change Except.ok (Value.array (items.map Item.value).reverse.reverse, rest) = _
  rw [List.reverse_reverse]

theorem value_map (hlabels : ∀ i ∈ items, IsKey i.label i.name)
    (h : Enclosed '\x7d' (items.map Item.source) word) :
    value .plain (fuel + 1) ('\x7b' :: word ++ rest) =
      .ok (.map (Entries.ofList (Item.entries 0 items)), rest) := by
  have hread : bracketed '\x7d' (mapItem (value .plain fuel)) [] (word ++ rest) = _ :=
    bracketed_of_enclosed Item.addNamed (.inr (.inl rfl))
      (fun i hi => exists_head_of_isKey (hlabels i hi))
      (fun i hi read rest hrest =>
        mapItem_append (hlabels i hi) (hdenotes i hi) (hvalue i hi rest hrest)) h
  rw [Item.foldl_addNamed fun i hi => isSome_of_isKey (hlabels i hi)] at hread
  change (bracketed '\x7d' (mapItem (value .plain fuel)) [] (word ++ rest) >>= _) = _
  rw [hread]
  rfl

theorem value_call {name : Text} (hname : IsIdentifier name)
    (hreserved : String.ofList name ∉ reserved)
    (hlabels : ∀ i ∈ items, IsOptionalName i.label i.name)
    (h : Enclosed ')' (items.map Item.source) word) :
    value .plain (fuel + 1) (name ++ '(' :: word ++ rest) =
      .ok (.call (String.ofList name) (Entries.ofList (Item.entries 0 items)), rest) := by
  have hread : bracketed ')' (callItem (value .plain fuel)) ([], 0) (word ++ rest) = _ :=
    bracketed_of_enclosed Item.add (.inr (.inr rfl))
      (fun i hi => exists_head_of_isOptionalName (hlabels i hi) (hdenotes i hi))
      (fun i hi read rest hrest =>
        callItem_append (hlabels i hi) (hdenotes i hi) hrest (hvalue i hi rest hrest)) h
  have hends : ∀ c ∈ ('(' :: (word ++ rest)).head?, ¬ isIdentifierChar c := by
    rintro c hc
    cases hc
    decide
  simp only [reserved, List.mem_cons, not_or] at hreserved
  rw [List.append_assoc, List.cons_append, value_word hname hends, if_neg hreserved.1,
    if_neg hreserved.2.1, if_neg hreserved.2.2.1, if_pos List.head?_cons, List.tail_cons, hread]
  change Except.ok (Value.call _ (items.foldl Item.add ([], 0)).1, rest) = _
  rw [Item.foldl_add]
  rfl

end

/-- A value of the language is read as what it means. -/
theorem value_of_denotes {v : Value} (h : Denotes word v) (hrest : Follows rest)
    (hfuel : word.length < fuel + 1) :
    value .plain (fuel + 1) (word ++ rest) = .ok (v, rest) := by
  have hends : ∀ {rest : Text}, Follows rest → ∀ c ∈ rest.head?, ¬ isIdentifierChar c :=
    fun hrest c hc => (hrest.ends c hc).not_isIdentifierChar
  induction h generalizing rest fuel with
  | null => exact value_word (by decide) (hends hrest)
  | true => exact value_word (by decide) (hends hrest)
  | false => exact value_word (by decide) (hends hrest)
  | string hstring => exact value_string hstring
  | number hnumeral hstart hn => exact value_number hnumeral hstart hn hrest.ends
  | array hlabels hdenotes henclosed ih =>
      have hitems := value_items henclosed (Nat.lt_of_succ_lt_succ hfuel) ih
      exact value_array hdenotes hitems hlabels henclosed
  | map hlabels hdenotes henclosed ih =>
      have hitems := value_items henclosed (Nat.lt_of_succ_lt_succ hfuel) ih
      exact value_map hdenotes hitems hlabels henclosed
  | @reference name text segments hname hpath =>
      have hread := path_append hname hpath hrest.ends
      rw [List.cons_append, List.cons_append, List.append_assoc]
      change (path (name ++ (text ++ rest)) >>= _) = _
      rw [hread]
      rfl
  | @call name items text hname hreserved hlabels hdenotes henclosed ih =>
      have hlt : text.length < fuel := by
        simp only [List.length_append, List.length_cons] at hfuel
        omega
      have hitems := value_items henclosed hlt ih
      exact value_call hdenotes hitems hname hreserved hlabels henclosed

end TaggedText.Grammar
