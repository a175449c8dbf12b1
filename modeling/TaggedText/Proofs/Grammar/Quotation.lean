import TaggedText.Proofs.Grammar.Words
import TaggedText.Proofs.Sites

/-!
# Strings never run past a directive

Two machines look at the quotes of a directive: the search for the closing delimiter, which knows
nothing but quotes and backslashes, and the grammar, which reads strings where a value or a key may
stand. A text is `Closed` if the search, begun outside a string, ends outside one. The body of a
directive is closed, since its delimiter was found, and so is what is left of it behind any reader
of the grammar, since a reader passes a quote only together with the whole string. A reader
therefore never finds a string without an end.
-/
namespace TaggedText

open Delimiter

namespace Delimiter

variable {text body rest : Text} {c : Char} {p : Char → Bool}

/-- A text that begins outside a string ends outside one. -/
def Closed (text : Text) : Prop :=
  text.foldl Mode.step .outside = .outside

/-- Outside a string only a quote changes the mode. -/
theorem closed_cons (hc : c ≠ '"') : Closed (c :: text) ↔ Closed text := by
  rw [Closed, List.foldl_cons, Mode.step, if_neg hc, Closed]

theorem Closed.dropWhile (hp : ∀ c, p c → c ≠ '"') (h : Closed text) :
    Closed (text.dropWhile p) := by
  induction text with
  | nil => exact h
  | cons c cs ih =>
      by_cases hc : p c
      · rw [List.dropWhile_cons_of_pos hc]
        exact ih ((closed_cons (hp c hc)).mp h)
      · rwa [List.dropWhile_cons_of_neg hc]

/-- The search never goes over to the outside at a character that is no quote. -/
theorem eq_outside_of_step {mode : Mode} (hc : c ≠ '"') (h : mode.step c = .outside) :
    mode = .outside := by
  cases mode with
  | outside => rfl
  | quoted =>
      rw [Mode.step, if_neg hc] at h
      split at h
      · cases h
      · cases h
  | escaped => cases h

/-- What is cut off the end without a quote is outside strings. -/
theorem Closed.of_append (hrest : ∀ c ∈ rest, c ≠ '"') (h : Closed (body ++ rest)) :
    Closed body := by
  rw [Closed, List.foldl_append] at h
  rw [Closed]
  generalize body.foldl Mode.step .outside = mode at h
  induction rest generalizing mode with
  | nil => exact h
  | cons c cs ih =>
      have hcs : ∀ d ∈ cs, d ≠ '"' := fun d hd => hrest d (List.mem_cons_of_mem c hd)
      have hstep : mode.step c = .outside := ih hcs (mode.step c) h
      exact eq_outside_of_step (hrest c List.mem_cons_self) hstep

theorem ne_quote_of_isBlank (h : Text.isBlank c) : c ≠ '"' := by
  rintro rfl
  exact absurd h (by decide)

theorem Closed.skipBlanks (h : Closed text) : Closed text.skipBlanks :=
  h.dropWhile fun _ => ne_quote_of_isBlank

theorem Closed.trim (h : Closed text) : Closed text.trim := by
  have hskip := h.skipBlanks
  rw [← Text.trim_append_blanks] at hskip
  refine hskip.of_append fun c hc => ?_
  exact ne_quote_of_isBlank (List.mem_takeWhile_imp (List.mem_reverse.mp hc))

/-- The search stops outside strings. -/
theorem foldl_step_of_closeIndexFrom {mode : Mode} {n k : Nat}
    (h : closeIndexFrom mode n text = some k) :
    (text.take (k - n)).foldl Mode.step mode = .outside := by
  induction text generalizing mode n with
  | nil => cases h
  | cons c cs ih =>
      have hle := (closeIndexFrom_drop h).1
      unfold closeIndexFrom at h
      split at h
      next hstop =>
        cases h
        rw [Nat.sub_self]
        exact hstop.1
      next =>
        have hle := (closeIndexFrom_drop h).1
        have hlater := ih h
        have hsucc : k - n = (k - (n + 1)) + 1 := by omega
        rw [hsucc, List.take_succ_cons, List.foldl_cons]
        exact hlater

theorem closed_of_splitBody? (h : splitBody? text = some (body, rest)) : Closed body := by
  obtain ⟨n, hn, hb⟩ := Option.map_eq_some_iff.mp h
  obtain ⟨rfl, -⟩ := Prod.mk.inj hb
  exact foldl_step_of_closeIndexFrom hn

end Delimiter

namespace Grammar

/-- A reader answers what `P` says, or an error that is not about a string without an end. -/
def Terminated {α : Type} (P : α → Prop) : Except Fault α → Prop
  | .ok a => P a
  | .error fault => fault.kind ≠ .unterminatedString

/-- What is left behind a reader is closed. -/
def LeavesClosed {α : Type} : Except Fault (α × Text) → Prop :=
  Terminated fun r => Closed r.2

variable {α β : Type} {text : Text} {c : Char} {make : Constructors}

theorem Terminated.bind {P : α → Prop} {Q : β → Prop} {x : Except Fault α}
    {f : α → Except Fault β} (hx : Terminated P x) (hf : ∀ a, P a → Terminated Q (f a)) :
    Terminated Q (x >>= f) := by
  cases x with
  | error fault => exact hx
  | ok a => exact hf a hx

theorem ne_quote_of_isIdentifierChar (h : isIdentifierChar c) : c ≠ '"' := by
  rintro rfl
  exact absurd h (by decide)

theorem ne_quote_of_isDigit (h : c.isDigit) : c ≠ '"' :=
  ne_quote_of_isIdentifierChar (isIdentifierChar_of_isDigit h)

theorem closed_of_identifier? {name : String} {rest : Text}
    (h : identifier? text = some (name, rest)) (ht : Closed text) : Closed rest := by
  cases text with
  | nil => cases h
  | cons c cs =>
      rw [identifier?] at h
      split at h
      next hc =>
        cases h
        have hchar := isIdentifierChar_of_isIdentifierStart hc
        have hcs := (closed_cons (ne_quote_of_isIdentifierChar hchar)).mp ht
        exact hcs.dropWhile fun _ => ne_quote_of_isIdentifierChar
      next => cases h

theorem leavesClosed_identifier (h : Closed text) : LeavesClosed (identifier text) := by
  unfold identifier
  split
  next r hr => exact closed_of_identifier? hr h
  next => rintro ⟨⟩

theorem terminated_expectChar {wanted : Char} (hw : wanted ≠ '"') (h : Closed text) :
    Terminated Closed (expectChar wanted text) := by
  cases text with
  | nil => rintro ⟨⟩
  | cons c cs =>
      rw [expectChar]
      split
      next hc => exact (closed_cons (hc ▸ hw)).mp h
      next => rintro ⟨⟩

/-- The search and the reader leave a string at the same quote. -/
theorem exists_stringRest (read : Text) (h : text.foldl Mode.step .quoted = .outside) :
    ∃ s rest, stringRest read text = some (s, rest) ∧ Closed rest := by
  fun_induction stringRest read text with
  | case1 => cases h
  | case2 read cs => exact ⟨_, cs, rfl, h⟩
  | case3 read c cs ih => exact ih h
  | case4 read c cs hquote hescape ih =>
      refine ih ?_
      have hne : c ≠ '\\' := by
        rintro rfl
        cases cs with
        | nil => cases h
        | cons d cs => exact hescape d cs rfl rfl
      rwa [List.foldl_cons, Mode.step, if_neg hquote, if_neg hne] at h

theorem leavesClosed_stringLiteral (hhead : text.head? = some '"') (h : Closed text) :
    LeavesClosed (stringLiteral text) := by
  rw [List.eq_cons_of_mem_head? hhead] at h
  obtain ⟨s, rest, hread, hrest⟩ := exists_stringRest [] h
  rw [stringLiteral, hread]
  exact hrest

theorem closed_splitUnsigned {sign : Text} (h : Closed text) :
    Closed (splitUnsigned sign text).2 := by
  have hrest : Closed (text.dropWhile Char.isDigit) := h.dropWhile fun _ => ne_quote_of_isDigit
  unfold splitUnsigned
  split
  next cs heq =>
    rw [heq] at hrest
    have hcs := (closed_cons (by decide)).mp hrest
    exact hcs.dropWhile fun _ => ne_quote_of_isDigit
  next => exact hrest

theorem closed_splitNumber (h : Closed text) : Closed (splitNumber text).2 := by
  by_cases hminus : text.head? = some '-'
  · rw [List.eq_cons_of_mem_head? hminus] at h ⊢
    exact closed_splitUnsigned ((closed_cons (by decide)).mp h)
  · rw [splitNumber_of_ne hminus]
    exact closed_splitUnsigned h

theorem leavesClosed_numberLiteral (h : Closed text) : LeavesClosed (numberLiteral text) := by
  have hrest := closed_splitNumber h
  unfold numberLiteral
  split
  next literal rest heq =>
    rw [heq] at hrest
    split
    next => exact hrest
    next => rintro ⟨⟩

theorem leavesClosed_bracketSegment (h : Closed text) : LeavesClosed (bracketSegment text) := by
  unfold bracketSegment
  split
  next hhead => exact (leavesClosed_stringLiteral hhead h).bind fun _ hrest => hrest
  next =>
    dsimp only
    split
    next => exact h.dropWhile fun _ => ne_quote_of_isDigit
    next => rintro ⟨⟩

theorem leavesClosed_pathRest {fuel : Nat} {read : List PathSegment} (h : Closed text) :
    LeavesClosed (pathRest fuel read text) := by
  induction fuel generalizing read text with
  | zero => exact h
  | succ fuel ih =>
      unfold pathRest
      split
      next cs =>
        have hcs := (closed_cons (by decide)).mp h
        exact (leavesClosed_identifier hcs).bind fun _ hrest => ih hrest
      next cs =>
        have hcs := (closed_cons (by decide)).mp h
        refine (leavesClosed_bracketSegment hcs.skipBlanks).bind fun segment hrest => ?_
        exact (terminated_expectChar (by decide) hrest.skipBlanks).bind fun _ hrest => ih hrest
      next => exact h

theorem leavesClosed_path (h : Closed text) : LeavesClosed (path text) :=
  (leavesClosed_identifier h).bind fun _ hrest => leavesClosed_pathRest hrest

/-- A reader that leaves every closed text closed. -/
def KeepsClosed (reader : Text → Except Fault (α × Text)) : Prop :=
  ∀ text, Closed text → LeavesClosed (reader text)

theorem closed_tail (hc : c ≠ '"') (hhead : text.head? = some c) (h : Closed text) :
    Closed text.tail := by
  rw [List.eq_cons_of_mem_head? hhead] at h
  exact (closed_cons hc).mp h

section

variable {σ : Type} {close : Char} {item : σ → Text → Except Fault (σ × Text)}

theorem leavesClosed_separated {fuel : Nat} {read : σ} (hclose : close ≠ '"')
    (hitem : ∀ read, KeepsClosed (item read)) (h : Closed text) :
    LeavesClosed (separated close item fuel read text) := by
  induction fuel generalizing read text with
  | zero => rintro ⟨⟩
  | succ fuel ih =>
      unfold separated
      dsimp only
      split
      next hhead => exact closed_tail hclose hhead h.skipBlanks
      next =>
        refine (hitem read _ h.skipBlanks).bind fun r hr => ?_
        have hrest := hr.skipBlanks
        split
        next hcomma => exact ih (closed_tail (by decide) hcomma hrest)
        next =>
          split
          next hhead => exact closed_tail hclose hhead hrest
          next => rintro ⟨⟩

theorem leavesClosed_bracketed {empty : σ} (hclose : close ≠ '"')
    (hitem : ∀ read, KeepsClosed (item read)) (h : Closed text) :
    LeavesClosed (bracketed close item empty text) :=
  leavesClosed_separated hclose hitem h

end

section

variable {value : Text → Except Fault (Value × Text)} (hvalue : KeepsClosed value)
include hvalue

theorem keepsClosed_arrayItem (read : List Value) : KeepsClosed (arrayItem value read) :=
  fun text h => (hvalue text h).bind fun _ hrest => hrest

/-- A sign and a value behind it. -/
theorem terminated_behindSign {Q : β → Prop} {sign : Char} {rest : Text}
    {f : Value × Text → Except Fault β} (hsign : sign ≠ '"') (hrest : Closed rest)
    (hf : ∀ r : Value × Text, Closed r.2 → Terminated Q (f r)) :
    Terminated Q (expectChar sign rest.skipBlanks >>= fun rest => value rest.skipBlanks >>= f) :=
  (terminated_expectChar hsign hrest.skipBlanks).bind fun _ hrest =>
    (hvalue _ hrest.skipBlanks).bind hf

theorem keepsClosed_mapItem (read : Entries Value) : KeepsClosed (mapItem value read) := by
  intro text h
  rw [mapItem_eq]
  have hkey : LeavesClosed
      (if text.head? = some '"' then stringLiteral text else identifier text) := by
    split
    next hhead => exact leavesClosed_stringLiteral hhead h
    next => exact leavesClosed_identifier h
  refine hkey.bind fun key hrest => ?_
  exact terminated_behindSign hvalue (by decide) hrest fun _ hlast => hlast

theorem keepsClosed_callItem (read : Entries Value × Nat) : KeepsClosed (callItem value read) := by
  intro text h
  unfold callItem
  split
  next =>
    refine (leavesClosed_identifier h).bind fun name hrest => ?_
    exact terminated_behindSign hvalue (by decide) hrest fun _ hlast => hlast
  next => exact (hvalue text h).bind fun _ hrest => hrest

end

/-- A word is a value of its own or the name of a call. -/
theorem leavesClosed_word {fuel : Nat} {name : String} {rest : Text}
    (hvalue : KeepsClosed (value make fuel)) (h : Closed rest) :
    LeavesClosed (if name = "true" then .ok (.bool true, rest)
      else if name = "false" then .ok (.bool false, rest)
      else if name = "null" then .ok (.null, rest)
      else if rest.head? = some '(' then do
        let (arguments, rest) ← bracketed ')' (callItem (value make fuel)) ([], 0) rest.tail
        return (make.call name arguments.1, rest)
      else .error ⟨.unknownIdentifier name, text, rest⟩) := by
  split_ifs with htrue hfalse hnull hcall
  · exact h
  · exact h
  · exact h
  · have hinner := closed_tail (by decide) hcall h
    have hitems : LeavesClosed (bracketed ')' (callItem (value make fuel)) ([], 0) rest.tail) :=
      leavesClosed_bracketed (by decide) (keepsClosed_callItem hvalue) hinner
    exact hitems.bind fun _ hlast => hlast
  · rintro ⟨⟩

theorem keepsClosed_value (fuel : Nat) : KeepsClosed (value make fuel) := by
  induction fuel with
  | zero => rintro text h ⟨⟩
  | succ fuel ih =>
      intro text h
      cases text with
      | nil => rintro ⟨⟩
      | cons c cs =>
          rw [value]
          by_cases hquote : c = '"'
          · have hhead : (c :: cs).head? = some '"' := congrArg some hquote
            rw [if_pos hquote]
            exact (leavesClosed_stringLiteral hhead h).bind fun _ hrest => hrest
          have hcs := (closed_cons hquote).mp h
          rw [if_neg hquote]
          split_ifs with harray hmap hreference hnumber
          · have hitems : LeavesClosed (bracketed ']' (arrayItem (value make fuel)) [] cs) :=
              leavesClosed_bracketed (by decide) (keepsClosed_arrayItem ih) hcs
            exact hitems.bind fun _ hrest => hrest
          · have hitems : LeavesClosed (bracketed '\x7d' (mapItem (value make fuel)) [] cs) :=
              leavesClosed_bracketed (by decide) (keepsClosed_mapItem ih) hcs
            exact hitems.bind fun _ hrest => hrest
          · exact (leavesClosed_path hcs).bind fun _ hrest => hrest
          · exact (leavesClosed_numberLiteral h).bind fun _ hrest => hrest
          · split
            next => rintro ⟨⟩
            next name rest hname => exact leavesClosed_word ih (closed_of_identifier? hname h)

theorem keepsClosed_expression : KeepsClosed (expression make) :=
  fun text => keepsClosed_value (text.length + 1) text

theorem leavesClosed_attributes {fuel : Nat} {read : List Attribute} (h : Closed text) :
    LeavesClosed (attributes make fuel read text) := by
  induction fuel generalizing read text with
  | zero => exact h
  | succ fuel ih =>
      have hskip := h.skipBlanks
      unfold attributes
      split
      next => exact rfl
      next c cs heq =>
        rw [heq] at hskip
        split_ifs with hslash hid hclass
        · exact hskip
        · subst hid
          have hcs := (closed_cons (by decide)).mp hskip
          exact (leavesClosed_identifier hcs).bind fun _ hrest => ih hrest
        · subst hclass
          have hcs := (closed_cons (by decide)).mp hskip
          exact (leavesClosed_identifier hcs).bind fun _ hrest => ih hrest
        · split
          next => rintro ⟨⟩
          next name rest hname =>
            have hequals : '=' ≠ '"' := by decide
            have hrest := closed_of_identifier? hname hskip
            exact terminated_behindSign keepsClosed_expression hequals hrest fun _ hlast => ih hlast

theorem leavesClosed_primary (h : Closed text) : LeavesClosed (primary make text) := by
  unfold primary
  split
  next => exact (keepsClosed_expression text h).bind fun _ hrest => hrest
  next => exact h

theorem terminated_expectEnd (text : Text) : Terminated (fun _ => True) (expectEnd text) := by
  unfold expectEnd
  split
  next => trivial
  next => rintro ⟨⟩

/-- Nothing is asked of the meaning of a body. -/
def Unfailing : Except Fault Descriptor → Prop :=
  Terminated fun _ => True

theorem unfailing_closingTag (text : Text) : Unfailing (closingTag text) := by
  unfold closingTag
  split
  next => rintro ⟨⟩
  next name rest _ => exact (terminated_expectEnd rest).bind fun _ _ => trivial

theorem unfailing_namedTag {name : String} (h : Closed text) :
    Unfailing (namedTag make name text) := by
  refine (leavesClosed_primary h.skipBlanks).bind fun first hfirst => ?_
  refine (leavesClosed_attributes hfirst).bind fun others _ => ?_
  dsimp only
  split
  next => exact (terminated_expectEnd _).bind fun _ _ => trivial
  next => exact (terminated_expectEnd _).bind fun _ _ => trivial

theorem unfailing_annotation (h : Closed text) : Unfailing (descriptor.annotation make text) := by
  refine (leavesClosed_attributes h).bind fun list _ => ?_
  exact (terminated_expectEnd _).bind fun _ _ => trivial

theorem unfailing_descriptor (h : Closed text) : Unfailing (descriptor make text) := by
  have hskip := h.skipBlanks
  unfold descriptor
  split
  next => rintro ⟨⟩
  next cs _ => exact unfailing_closingTag cs
  next =>
    split
    next name rest hname =>
      split
      next => exact unfailing_annotation hskip
      next => exact unfailing_namedTag (closed_of_identifier? hname hskip)
    next => exact unfailing_annotation hskip

theorem kind_ne_of_read {e : SyntaxError} (h : Closed text) (hread : read make text = .error e) :
    e.kind ≠ .unterminatedString := by
  have hd : Unfailing (descriptor make text) := unfailing_descriptor h
  unfold read at hread
  cases hfault : descriptor make text with
  | ok d =>
      rw [hfault] at hread
      cases hread
  | error fault =>
      rw [hfault] at hread hd
      cases hread
      exact hd

theorem read_of_standard {e : SyntaxError} (h : standard text = .error (.malformed e)) :
    read .plain text = .error e := by
  unfold standard at h
  cases hread : read .plain text with
  | ok d =>
      rw [hread] at h
      cases h
  | error error =>
      rw [hread] at h
      cases h
      rfl

end Grammar

/-- No other cause is worded like a string without an end. -/
theorem SyntaxErrorKind.message_ne {kind : SyntaxErrorKind} (h : kind ≠ .unterminatedString) :
    kind.message ≠ unterminatedString.message := by
  -- The wordings differ in their third character already.
  have hapart : ∀ head last : String, 2 < head.toList.length → head.toList[2]? ≠ some 't' →
      head ++ last ≠ unterminatedString.message := by
    intro head last hlength hne heq
    have hthird : (head ++ last).toList[2]? = some 't' := by
      rw [heq]
      rfl
    rw [String.toList_append, List.getElem?_append_left hlength] at hthird
    exact hne hthird
  cases kind with
  | unterminatedString => exact absurd rfl h
  | emptyTag => exact hapart "empty tag" "" (by decide) (by decide)
  | expectedTagName => exact hapart "expected tag name" "" (by decide) (by decide)
  | expectedValue found => exact hapart "expected attribute value, got " _ (by decide) (by decide)
  | expected wanted found =>
      have hmessage := hapart "expected '" (wanted.toString ++ "', got " ++ describe found)
        (by decide) (by decide)
      rwa [← String.append_assoc, ← String.append_assoc] at hmessage
  | expectedIdentifier found => exact hapart "expected identifier, got " _ (by decide) (by decide)
  | unknownIdentifier name => exact hapart "unexpected identifier: " _ (by decide) (by decide)
  | trailingInput found => exact hapart "unexpected character: " _ (by decide) (by decide)
  | invalidNumber text => exact hapart "invalid number: " _ (by decide) (by decide)

/-- The body of a site is closed. -/
theorem Layout.closed_body {site : Layout.Site} {firstLine : UInt64} {text : Text}
    (h : site ∈ (Layout.ofText firstLine text).sites) : Closed site.body := by
  obtain ⟨behind, rest, hsplit⟩ := exists_splitBody?_of_mem_sites h
  exact closed_of_splitBody? hsplit

/-- What stands before a closing delimiter is closed. -/
theorem Delimiter.closed_slice {text : Text} {start stop : Nat} (h : Text.IsBoundary text start)
    (hclosing : closingOffset? text start = some stop) : Closed (Text.slice text start stop) := by
  obtain ⟨before, after, rfl, rfl⟩ := h
  rw [closingOffset?_append] at hclosing
  obtain ⟨⟨body, rest⟩, hsplit, rfl⟩ := Option.map_eq_some_iff.mp hclosing
  have hslice := Text.slice_append before body (closing ++ rest)
  rw [eq_of_splitBody? hsplit, List.append_assoc body, ← List.append_assoc before, hslice]
  exact closed_of_splitBody? hsplit

/-- Before a closing delimiter that the search finds, the grammar meets no string without an end,
whatever references and calls become. So no token of a document bears such an error. -/
theorem ne_unterminatedString (document : String) :
    (∀ (make : Grammar.Constructors) (start stop : Nat),
      Text.IsBoundary document.toList start → closingOffset? document.toList start = some stop →
        ∀ e, Grammar.read make (Text.slice document.toList start stop).trim = .error e →
          e.kind ≠ .unterminatedString) ∧
    ∀ firstLine tokens, Token.ofTextWith Grammar.standard firstLine document = .ok tokens →
      ∀ token ∈ tokens, ∀ directive e, token.lexeme = .directive directive (.error e) →
        e.message ≠ SyntaxErrorKind.unterminatedString.message := by
  constructor
  · intro make start stop hboundary hclosing e hread
    exact Grammar.kind_ne_of_read (closed_slice hboundary hclosing).trim hread
  · intro firstLine tokens htokens token hmem directive e hlexeme
    obtain ⟨site, hsite, hread⟩ := Token.exists_site htokens hmem hlexeme
    have hclosed : Closed site.body.trim := (Layout.closed_body hsite).trim
    unfold Layout.Site.lexeme at hread
    split at hread
    · cases hread
    next error hbody =>
      cases hread
      have hkind := Grammar.kind_ne_of_read hclosed (Grammar.read_of_standard hbody)
      exact SyntaxErrorKind.message_ne hkind
    · cases hread

/-- The string holds a delimiter and a quote behind a backslash, and the error comes behind it. -/
theorem ne_unterminatedString_escaped :
    let document := "\x7b% a k=\"%\x7d\\\"é\" , %\x7d"
    closingOffset? document.toList 2 = some 18 ∧
      (∃ e, Grammar.read .plain (Text.slice document.toList 2 18).trim = .error e ∧
        e.kind = .trailingInput ',' ∧ e.kind ≠ .unterminatedString) ∧
      ∃ tokens, Token.ofTextWith Grammar.standard 0 document = .ok tokens ∧
        ∃ token ∈ tokens, ∃ directive e, token.lexeme = .directive directive (.error e) ∧
          e.message ≠ SyntaxErrorKind.unterminatedString.message := by
  intro document
  have hclosing : closingOffset? document.toList 2 = some 18 := by decide +kernel
  have hboundary : Text.IsBoundary document.toList 2 :=
    ⟨opening, document.toList.drop 2, by decide, by decide⟩
  have hbody : (Text.slice document.toList 2 18).trim = "a k=\"%\x7d\\\"é\" ,".toList := by
    decide +kernel
  have hread : Grammar.read .plain (Text.slice document.toList 2 18).trim =
      .error ⟨.trailingInput ',', 13, 14⟩ := by
    rw [hbody]
    rfl
  have hsome : (Token.ofTextWith Grammar.standard 0 document).toOption.map
      (fun tokens => tokens.any fun token => token.lexeme.error?.isSome) = some true := by
    decide +kernel
  obtain ⟨tokens, htokens, hany⟩ := Option.map_eq_some_iff.mp hsome
  obtain ⟨token, hmem, herror⟩ := List.any_eq_true.mp hany
  obtain ⟨e, he⟩ := Option.isSome_iff_exists.mp herror
  obtain ⟨directive, hlexeme⟩ := Lexeme.error?_eq_some_iff.mp he
  have hok := toOption_eq_some_iff.mp htokens
  refine ⟨hclosing, ⟨_, hread, rfl, ?_⟩, tokens, hok, token, hmem, directive, e, hlexeme, ?_⟩
  · exact (ne_unterminatedString document).1 .plain 2 18 hboundary hclosing _ hread
  · exact (ne_unterminatedString document).2 0 tokens hok token hmem directive e hlexeme

end TaggedText
