import TaggedText.Proofs.Grammar.Alike
import TaggedText.Proofs.Sites

/-!
# Blanks around a body

Blanks around a body do not change what is read. With the readers of words compared on texts that
differ in the blanks at their ends only, values and bodies are compared in the same way. A body with
blanks behind it is such a text, and the blanks before it are passed first.

So the trimming of a body in a document makes no directive right or wrong.
-/
namespace TaggedText.Grammar

variable {α β : Type} {make : Constructors} {s t : Text} {c : Char} {m n : Nat}

section

variable {σ : Type} {close : Char} {item item' : σ → Text → Except Fault (σ × Text)} {k l : Nat}
  (hclose : ¬ Text.isBlank close) (hitem : ∀ read, AgreeUpTo k l (item read) (item' read))
include hclose hitem

theorem separated_alike (read : σ) (hm : m ≤ k) (hn : n ≤ l) (h : Alike m n s t) :
    Agree (SameRead m n) (separated close item (m + 1) read s)
      (separated close item' (n + 1) read t) := by
  induction m using Nat.strong_induction_on generalizing n s t read with
  | _ m ih =>
    have hinner := h.skipBlanks.alike
    refine .ite (hinner.head?_iff hclose) (fun _ _ => .ok (.intro read hinner.tail)) ?_
    refine (hitem read hm hn hinner).andThen fun read _ _ hrest => ?_
    have hrest := hrest.skipBlanks.alike
    refine .ite (hrest.head?_iff (by decide)) (fun hs _ => ?_) ?_
    · obtain ⟨m, n, s, t, rfl, rfl, hs, ht, hrest⟩ := hrest.exists_cons (by decide) hs
      rw [hs, ht]
      refine (ih m m.lt_succ_self read (by omega) (by omega) hrest).mono fun _ _ hr => ?_
      exact hr.mono (Nat.le_succ m) (Nat.le_succ n)
    · exact .ite (hrest.head?_iff hclose) (fun _ _ => .ok (.intro read hrest.tail)) (.error _ _)

theorem bracketed_alike (empty : σ) (hm : m ≤ k) (hn : n ≤ l) (h : Alike m n s t) :
    Agree (SameRead m n) (bracketed close item empty s) (bracketed close item' empty t) := by
  obtain ⟨hsm, htn⟩ := h.length_le
  exact (separated_alike hclose hitem empty (hsm.trans hm) (htn.trans hn) h.tight).mono
    fun _ _ hr => hr.mono hsm htn

end

section

variable {value value' : Text → Except Fault (Value × Text)} {k l : Nat}
  (hvalue : AgreeUpTo k l value value')
include hvalue

theorem arrayItem_alike (read : List Value) :
    AgreeUpTo k l (arrayItem value read) (arrayItem value' read) :=
  fun _ _ _ _ hm hn h => (hvalue hm hn h).andThen fun v _ _ hrest => .ok (.intro (v :: read) hrest)

/-- A sign and a value behind it. -/
theorem behindSign_alike {f g : Value × Text → Except Fault (β × Text)} {sign : Char}
    (hsign : ¬ Text.isBlank sign) (hm : m ≤ k) (hn : n ≤ l) (h : Alike m n s t)
    (hf : ∀ v s t, Alike m n s t → Agree (SameRead m n) (f (v, s)) (g (v, t))) :
    Agree (SameRead m n)
      (expectChar sign s.skipBlanks >>= fun rest => value rest.skipBlanks >>= f)
      (expectChar sign t.skipBlanks >>= fun rest => value' rest.skipBlanks >>= g) := by
  refine (expectChar_alike hsign h.skipBlanks.alike).bind fun _ _ hrest => ?_
  exact (hvalue hm hn hrest.skipBlanks.alike).andThen hf

theorem mapItem_alike (read : Entries Value) :
    AgreeUpTo k l (mapItem value read) (mapItem value' read) := by
  intro m n s t hm hn h
  rw [mapItem_eq, mapItem_eq]
  have hkey : Agree (SameRead m n)
      (if s.head? = some '"' then stringLiteral s else identifier s)
      (if t.head? = some '"' then stringLiteral t else identifier t) :=
    .ite (h.head?_iff (by decide)) (fun _ _ => stringLiteral_alike h) (identifier_alike h)
  refine hkey.andThen fun key _ _ hrest => ?_
  exact behindSign_alike hvalue (by decide) hm hn hrest fun v _ _ hrest => .ok (.intro _ hrest)

theorem callItem_alike (read : Entries Value × Nat) :
    AgreeUpTo k l (callItem value read) (callItem value' read) := by
  intro m n s t hm hn h
  refine .ite (Bool.eq_iff_iff.mp (startsAttribute_alike h)) (fun _ _ => ?_) ?_
  · refine (identifier_alike h).andThen fun name _ _ hrest => ?_
    exact behindSign_alike hvalue (by decide) hm hn hrest fun v _ _ hrest => .ok (.intro _ hrest)
  · exact (hvalue hm hn h).andThen fun v _ _ hrest => .ok (.intro _ hrest)

end

/-- A word is a value of its own or the name of a call. -/
theorem word_alike {fuel fuel' : Nat} (name : String) {text text' : Text}
    (hvalue : AgreeUpTo m n (value make fuel) (value make fuel')) (h : Alike m n s t) :
    Agree (SameRead m n)
      (if name = "true" then .ok (.bool true, s)
        else if name = "false" then .ok (.bool false, s)
        else if name = "null" then .ok (.null, s)
        else if s.head? = some '(' then do
          let (arguments, rest) ← bracketed ')' (callItem (value make fuel)) ([], 0) s.tail
          return (make.call name arguments.1, rest)
        else .error ⟨.unknownIdentifier name, text, s⟩)
      (if name = "true" then .ok (.bool true, t)
        else if name = "false" then .ok (.bool false, t)
        else if name = "null" then .ok (.null, t)
        else if t.head? = some '(' then do
          let (arguments, rest) ← bracketed ')' (callItem (value make fuel')) ([], 0) t.tail
          return (make.call name arguments.1, rest)
        else .error ⟨.unknownIdentifier name, text', t⟩) := by
  refine .ite Iff.rfl (fun _ _ => .ok (.intro (Value.bool true) h)) ?_
  refine .ite Iff.rfl (fun _ _ => .ok (.intro (Value.bool false) h)) ?_
  refine .ite Iff.rfl (fun _ _ => .ok (.intro Value.null h)) ?_
  refine .ite (h.head?_iff (by decide)) (fun _ _ => ?_) (.error _ _)
  have hclose : ¬ Text.isBlank ')' := by decide
  have hitems := bracketed_alike hclose (callItem_alike hvalue) ([], 0) le_rfl le_rfl h.tail
  exact hitems.andThen fun arguments _ _ hrest => .ok (.intro (make.call name arguments.1) hrest)

theorem value_of_blanks (make : Constructors) (fuel : Nat) (h : Blanks s) :
    ∃ fault, value make fuel s = .error fault := by
  cases fuel with
  | zero => exact ⟨_, rfl⟩
  | succ fuel =>
      match s with
      | [] => exact ⟨_, rfl⟩
      | c :: cs =>
          have hc := h c List.mem_cons_self
          have hne : ∀ {d : Char}, ¬ Text.isBlank d → c ≠ d := by
            rintro d hd rfl
            exact hd hc
          have hnumber : ¬ (c = '-' || c.isDigit) = true := by
            simp [hne (d := '-') (by decide), not_isDigit_of_isBlank c hc]
          rw [value, if_neg (hne (by decide)), if_neg (hne (by decide)), if_neg (hne (by decide)),
            if_neg (hne (by decide)), if_neg hnumber, identifier?_of_blanks h]
          exact ⟨_, rfl⟩

theorem value_alike (m n : Nat) : AgreeUpTo m n (value make (m + 1)) (value make (n + 1)) := by
  induction m using Nat.strong_induction_on generalizing n with
  | _ m ih =>
    intro k l s t hm hn h
    cases h with
    | blanks hs ht =>
        obtain ⟨_, hs⟩ := value_of_blanks make (m + 1) hs
        obtain ⟨_, ht⟩ := value_of_blanks make (n + 1) ht
        rw [hs, ht]
        exact .error _ _
    | @cons k l s t c h =>
        obtain ⟨m, rfl⟩ := Nat.exists_eq_succ_of_ne_zero (Nat.ne_zero_of_lt hm)
        obtain ⟨n, rfl⟩ := Nat.exists_eq_succ_of_ne_zero (Nat.ne_zero_of_lt hn)
        have hm := Nat.le_of_succ_le_succ hm
        have hn := Nat.le_of_succ_le_succ hn
        have hvalue := ih m m.lt_succ_self n
        rw [value, value]
        -- All but strings and numbers are read behind their first character.
        have hbehind : ∀ {x y : Except Fault (Value × Text)}, Agree (SameRead k l) x y →
            Agree (SameRead (k + 1) (l + 1)) x y := fun hxy =>
          hxy.mono fun _ _ hr => hr.mono (Nat.le_succ k) (Nat.le_succ l)
        refine .ite Iff.rfl (fun _ _ => ?string) <| .ite Iff.rfl (fun _ _ => ?array) <|
          .ite Iff.rfl (fun _ _ => ?map) <| .ite Iff.rfl (fun _ _ => ?reference) <|
          .ite Iff.rfl (fun _ _ => ?number) ?word
        case string =>
          exact (stringLiteral_alike (.cons c h)).andThen fun s _ _ hrest =>
            .ok (.intro (Value.string s) hrest)
        case array =>
          have hclose : ¬ Text.isBlank ']' := by decide
          have hitems := bracketed_alike hclose (arrayItem_alike hvalue) [] hm hn h
          exact hbehind <| hitems.andThen fun items _ _ hrest =>
            .ok (.intro (Value.array items.reverse) hrest)
        case map =>
          have hclose : ¬ Text.isBlank '\x7d' := by decide
          have hentries := bracketed_alike hclose (mapItem_alike hvalue) [] hm hn h
          exact hbehind <| hentries.andThen fun entries _ _ hrest =>
            .ok (.intro (Value.map entries) hrest)
        case reference =>
          exact hbehind <| (path_alike h).andThen fun segments _ _ hrest =>
            .ok (.intro (make.reference segments) hrest)
        case number =>
          exact (numberLiteral_alike (.cons c h)).andThen fun number _ _ hrest =>
            .ok (.intro (Value.number number) hrest)
        case word =>
          have hword := identifier?_cons_alike c h
          generalize identifier? (c :: s) = x, identifier? (c :: t) = y at hword
          cases hword with
          | none => exact .error _ _
          | some hr =>
              obtain ⟨name, hrest⟩ := hr
              exact hbehind (word_alike name (hvalue.mono hm hn) hrest)

theorem expression_alike (h : Alike m n s t) :
    Agree (SameRead m n) (expression make s) (expression make t) := by
  refine (value_alike s.length t.length le_rfl le_rfl h.tight).mono fun _ _ hr => ?_
  exact hr.mono h.length_le.1 h.length_le.2

theorem attributes_alike (read : List Attribute) (h : Alike m n s t) :
    Agree (SameRead m n) (attributes make (m + 1) read s) (attributes make (n + 1) read t) := by
  induction m using Nat.strong_induction_on generalizing n s t read with
  | _ m ih =>
    have haligned := h.skipBlanks
    rw [attributes, attributes]
    generalize s.skipBlanks = inner, t.skipBlanks = inner' at haligned
    cases haligned with
    | nil => exact .ok (.intro _ (.blanks blanks_nil blanks_nil (Nat.zero_le _) (Nat.zero_le _)))
    | @cons m n c s t hc hrest =>
      refine .ite Iff.rfl (fun _ _ => .ok (.intro _ (.cons c hrest))) ?_
      -- An attribute takes at least one character away.
      refine Agree.mono (R := SameRead m n) ?_ fun _ _ hr => hr.mono (Nat.le_succ m) (Nat.le_succ n)
      have hread : ∀ (a : Attribute) {s t}, Alike m n s t → Agree (SameRead m n)
          (attributes make (m + 1) (a :: read) s) (attributes make (n + 1) (a :: read) t) :=
        fun a _ _ h => ih m m.lt_succ_self (a :: read) h
      refine .ite Iff.rfl (fun _ _ => ?id) <| .ite Iff.rfl (fun _ _ => ?classed) ?plain
      case id =>
        exact (identifier_alike hrest).andThen fun name _ _ h => hread (.id name) h
      case classed =>
        exact (identifier_alike hrest).andThen fun name _ _ h => hread (.classed name) h
      case plain =>
        have hword := identifier?_cons_alike c hrest
        generalize identifier? (c :: s) = x, identifier? (c :: t) = y at hword
        cases hword with
        | none => exact .error _ _
        | some hr =>
            obtain ⟨name, hrest⟩ := hr
            have hvalue : AgreeUpTo m n (expression make) (expression make) :=
              fun _ _ _ _ _ _ h => expression_alike h
            exact behindSign_alike hvalue (by decide) le_rfl le_rfl hrest fun v _ _ h =>
              hread (.plain name v) h

theorem attributeList_alike (h : Alike m n s t) :
    Agree (SameRead m n) (attributeList make s) (attributeList make t) :=
  (attributes_alike [] h.tight).mono fun _ _ hr => hr.mono h.length_le.1 h.length_le.2

theorem startsPrimary_alike (h : Aligned m n s t) : startsPrimary s = startsPrimary t := by
  cases h with
  | nil => rfl
  | cons hc h =>
      rw [startsPrimary, startsPrimary, startsAttribute_alike (.cons _ h)]

theorem primary_alike (h : Aligned m n s t) :
    Agree (SameRead m n) (primary make s) (primary make t) := by
  refine .ite (Bool.eq_iff_iff.mp (startsPrimary_alike h)) (fun _ _ => ?_) (.ok (.intro [] h.alike))
  exact (expression_alike h.alike).andThen fun v _ _ hrest => .ok (.intro _ hrest)

theorem expectEnd_alike (h : Alike m n s t) : Agree Eq (expectEnd s) (expectEnd t) := by
  have haligned := h.skipBlanks
  unfold expectEnd
  generalize s.skipBlanks = inner, t.skipBlanks = inner' at haligned
  cases haligned with
  | nil => exact .ok rfl
  | cons => exact .error _ _

theorem closingTag_alike (h : Alike m n s t) : Agree Eq (closingTag s) (closingTag t) := by
  have hword := identifier?_alike h.skipBlanks.alike
  unfold closingTag
  generalize identifier? s.skipBlanks = x, identifier? t.skipBlanks = y at hword
  cases hword with
  | none => exact .error _ _
  | some hr =>
      cases hr with
      | intro name h => exact (expectEnd_alike h).bind fun _ _ _ => .ok rfl

theorem namedTag_alike (name : String) (h : Alike m n s t) :
    Agree Eq (namedTag make name s) (namedTag make name t) := by
  refine (primary_alike h.skipBlanks).andThen fun first _ _ h => ?_
  refine (attributeList_alike h).andThen fun others _ _ h => ?_
  refine .ite (h.head?_iff (by decide)) (fun _ _ => ?_) ?_
  · exact (expectEnd_alike h.tail).bind fun _ _ _ => .ok rfl
  · exact (expectEnd_alike h).bind fun _ _ _ => .ok rfl

theorem annotation_alike (h : Alike m n s t) :
    Agree Eq (descriptor.annotation make s) (descriptor.annotation make t) := by
  refine (attributeList_alike h).andThen fun list _ _ h => ?_
  exact (expectEnd_alike h).bind fun _ _ _ => .ok rfl

/-- Blanks before a text are passed first. -/
theorem descriptor_blanks_append {before : Text} (hbefore : Blanks before) (text : Text) :
    descriptor make (before ++ text) = descriptor make text := by
  rw [descriptor, descriptor, skipBlanks_append hbefore]

theorem descriptor_skipBlanks (text : Text) :
    descriptor make text.skipBlanks = descriptor make text := by
  obtain ⟨blanks, hblanks, htext⟩ := exists_blanks text
  exact (congrArg (descriptor make) htext).trans (descriptor_blanks_append hblanks _) |>.symm

theorem descriptor_cons {cs : Text} (hc : ¬ Text.isBlank c) (hslash : c ≠ '/') :
    descriptor make (c :: cs) = match identifier? (c :: cs) with
      | some (name, rest) =>
          if startsAttribute (c :: cs) then descriptor.annotation make (c :: cs)
          else namedTag make name rest
      | none => descriptor.annotation make (c :: cs) := by
  rw [descriptor, skipBlanks_cons hc]
  split
  next heq => cases heq
  next heq => exact absurd (List.cons.inj heq).1 hslash
  next => rfl

theorem descriptor_aligned (h : Aligned m n s t) :
    Agree Eq (descriptor make s) (descriptor make t) := by
  cases h with
  | nil => exact .error _ _
  | @cons m n c s t hc hrest =>
      by_cases hslash : c = '/'
      · rw [hslash]
        exact closingTag_alike hrest
      · have hannotation : Agree Eq (descriptor.annotation make (c :: s))
            (descriptor.annotation make (c :: t)) := annotation_alike (.cons c hrest)
        have hattribute := startsAttribute_alike (.cons c hrest)
        have hword := identifier?_cons_alike c hrest
        rw [descriptor_cons hc hslash, descriptor_cons hc hslash]
        generalize identifier? (c :: s) = x, identifier? (c :: t) = y at hword
        cases hword with
        | none => exact hannotation
        | some hr =>
            obtain ⟨name, hrest⟩ := hr
            exact .ite (Bool.eq_iff_iff.mp hattribute) (fun _ _ => hannotation)
              (namedTag_alike name hrest)

theorem descriptor_alike (h : Alike m n s t) :
    Agree Eq (descriptor make s) (descriptor make t) := by
  rw [← descriptor_skipBlanks s, ← descriptor_skipBlanks t]
  exact descriptor_aligned h.skipBlanks

theorem Agree.eq_ok_iff {x y : Except Fault α} (h : Agree Eq x y) (a : α) :
    x = .ok a ↔ y = .ok a := by
  cases h with
  | ok h => rw [h]
  | error f g => exact iff_of_false nofun nofun

/-- The built-in grammar that makes its references and calls in a given way. -/
def withConstructors (make : Constructors) : Grammar := fun body =>
  (read make body).mapError .malformed

theorem withConstructors_plain : withConstructors .plain = standard := rfl

theorem withConstructors_eq_ok_iff {body : Text} {d : Descriptor} :
    withConstructors make body = .ok d ↔ descriptor make body = .ok d := by
  unfold withConstructors read
  cases descriptor make body with
  | error fault => simp [Except.mapError]
  | ok read => simp [Except.mapError]

theorem neverGivesUp_withConstructors (make : Constructors) :
    (withConstructors make).NeverGivesUp := by
  intro body cause
  rw [withConstructors]
  cases read make body with
  | ok descriptor => exact nofun
  | error e => exact nofun

theorem withConstructors_blanks_append {before after : Text} (hbefore : Blanks before)
    (hafter : Blanks after) (body : Text) (d : Descriptor) :
    withConstructors make (before ++ body ++ after) = .ok d ↔
      withConstructors make body = .ok d := by
  rw [withConstructors_eq_ok_iff, withConstructors_eq_ok_iff, List.append_assoc,
    descriptor_blanks_append hbefore]
  exact (descriptor_alike (.append_blanks body hafter)).eq_ok_iff d

theorem withConstructors_trim (body : Text) (d : Descriptor) :
    withConstructors make body.trim = .ok d ↔ withConstructors make body = .ok d := by
  obtain ⟨before, hbefore, hbody⟩ := exists_blanks body
  have hafter : Blanks (body.skipBlanks.reverse.takeWhile Text.isBlank).reverse :=
    fun c hc => List.mem_takeWhile_imp (List.mem_reverse.mp hc)
  rw [← withConstructors_blanks_append hbefore hafter body.trim, List.append_assoc,
    Text.trim_append_blanks, ← hbody]

/-- The reading of a site is what the grammar makes of all that stands between the delimiters. -/
theorem eq_ok_iff_of_lexeme {site : Layout.Site} {directive : Directive}
    {reading : Except DirectiveError Descriptor}
    (h : site.lexeme (withConstructors make) = .ok (.directive directive reading))
    (d : Descriptor) : reading = .ok d ↔ withConstructors make site.body = .ok d := by
  rw [← withConstructors_trim]
  unfold Layout.Site.lexeme at h
  split at h
  next descriptor hbody =>
    cases h
    rw [hbody, Except.ok.injEq, Except.ok.injEq]
  next e hbody =>
    cases h
    rw [hbody]
    exact iff_of_false nofun nofun
  next => cases h

theorem source_of_lexeme {grammar : Grammar} {site : Layout.Site} {directive : Directive}
    {reading : Except DirectiveError Descriptor}
    (h : site.lexeme grammar = .ok (.directive directive reading)) :
    directive.source.toList = Delimiter.opening ++ site.body ++ Delimiter.closing := by
  have hdirective : directive = site.directive := by
    unfold Layout.Site.lexeme at h
    split at h
    next =>
      cases h
      rfl
    next =>
      cases h
      rfl
    next => cases h
  rw [hdirective, Layout.Site.directive, String.toList_ofList, Layout.Site.source]

/-- Blanks around a body do not change what the built-in grammar accepts, and so the directives of a
document are accepted as they stand, although their bodies are trimmed before they are read. -/
theorem blanks_around_body (make : Constructors) :
    (∀ body before after, Blanks before → Blanks after → ∀ d,
      withConstructors make (before ++ body ++ after) = .ok d ↔
        withConstructors make body = .ok d) ∧
    ∀ firstLine document, ∃ tokens,
      Token.ofTextWith (withConstructors make) firstLine document = .ok tokens ∧
      ∀ token ∈ tokens, ∀ directive reading, token.lexeme = .directive directive reading →
        ∃ body, directive.source.toList = Delimiter.opening ++ body ++ Delimiter.closing ∧
          ∀ d, reading = .ok d ↔ withConstructors make body = .ok d := by
  constructor
  · exact fun body before after hbefore hafter => withConstructors_blanks_append hbefore hafter body
  · intro firstLine document
    obtain ⟨tokens, htokens⟩ := Layout.exists_tokens (neverGivesUp_withConstructors make)
      (Layout.ofText firstLine document.toList)
    refine ⟨tokens, htokens, fun token hmem directive reading hlexeme => ?_⟩
    obtain ⟨site, -, hread⟩ := Token.exists_site htokens hmem hlexeme
    exact ⟨site.body, source_of_lexeme hread, eq_ok_iff_of_lexeme hread⟩

/-- An em space before a tag and a line feed behind it, alone and in a document. -/
theorem blanks_around_body_tag :
    standard "\u2003b #i\n".toList = .ok (.opening "b" [.id "i"]) ∧
    ∃ tokens, Token.ofText "\x7b%\u2003b #i\n%\x7d" = .ok tokens ∧
      ∃ token ∈ tokens, ∃ directive reading, token.lexeme = .directive directive reading ∧
        ∃ body, directive.source.toList = Delimiter.opening ++ body ++ Delimiter.closing ∧
          ∀ d, reading = .ok d ↔ standard body = .ok d := by
  have hbefore : Blanks ['\u2003'] := List.forall_mem_singleton.mpr (by decide)
  have hafter : Blanks ['\n'] := List.forall_mem_singleton.mpr (by decide)
  obtain ⟨haccept, hdirectives⟩ := blanks_around_body .plain
  obtain ⟨tokens, htokens, hall⟩ := hdirectives 0 "\x7b%\u2003b #i\n%\x7d"
  have hruns : (Token.ofText "\x7b%\u2003b #i\n%\x7d").toOption.map (List.map Token.isRun) =
      some [true, false, true] := by
    decide +kernel
  rw [Token.ofText, ← withConstructors_plain, htokens] at hruns
  have hfalse : false ∈ tokens.map Token.isRun := Option.some.inj hruns ▸ by decide
  obtain ⟨token, hmem, hrun⟩ := List.mem_map.mp hfalse
  refine ⟨(haccept "b #i".toList _ _ hbefore hafter _).mpr rfl, tokens, htokens, token, hmem, ?_⟩
  cases hlexeme : token.lexeme with
  | text content => simp [Token.isRun, hlexeme] at hrun
  | directive directive reading =>
      exact ⟨directive, reading, rfl, hall token hmem directive reading hlexeme⟩

end TaggedText.Grammar
