import Mathlib.Data.List.DropRight
import TaggedText.Proofs.Fallible
import TaggedText.Proofs.Grammar.Sentences

/-!
# What the readers accept

A reader that succeeds has passed a text of the language, with what it gives as the meaning, and
hands on what follows. One lemma says so for each reader. Nothing is lost between two readers, so a
body that is accepted is a sentence from its first character to its last.
-/
namespace TaggedText.Grammar

variable {text rest : Text} {name s : String}

theorem blanks_nil : Blanks [] :=
  fun _ hc => absurd hc List.not_mem_nil

theorem Blanks.append {a b : Text} (ha : Blanks a) (hb : Blanks b) : Blanks (a ++ b) := by
  intro c hc
  rcases List.mem_append.mp hc with hc | hc
  · exact ha c hc
  · exact hb c hc

theorem exists_blanks (text : Text) : ∃ blanks, Blanks blanks ∧ text = blanks ++ text.skipBlanks :=
  ⟨text.takeWhile Text.isBlank, fun _ hc => List.mem_takeWhile_imp hc,
    List.takeWhile_append_dropWhile.symm⟩

theorem exists_digits (text : Text) :
    Digits (text.takeWhile Char.isDigit) ∧
      text = text.takeWhile Char.isDigit ++ text.dropWhile Char.isDigit :=
  ⟨fun _ hc => List.mem_takeWhile_imp hc, List.takeWhile_append_dropWhile.symm⟩

theorem isIdentifier_of_identifier? (h : identifier? text = some (name, rest)) :
    ∃ word, IsIdentifier word ∧ name = String.ofList word ∧ text = word ++ rest := by
  match text with
  | [] => cases h
  | c :: cs =>
      rw [identifier?] at h
      split at h
      next hc =>
        cases h
        have hword : IsIdentifier (c :: cs.takeWhile isIdentifierChar) :=
          isIdentifier_cons_iff.mpr ⟨hc, fun d hd => List.mem_takeWhile_imp hd⟩
        refine ⟨c :: cs.takeWhile isIdentifierChar, hword, rfl, ?_⟩
        rw [List.cons_append, List.takeWhile_append_dropWhile]
      next => cases h

theorem isIdentifier_of_identifier (h : identifier text = .ok (name, rest)) :
    ∃ word, IsIdentifier word ∧ name = String.ofList word ∧ text = word ++ rest := by
  unfold identifier at h
  split at h
  next r hr =>
    cases h
    exact isIdentifier_of_identifier? hr
  next => cases h

theorem eq_cons_of_expectChar {wanted : Char} (h : expectChar wanted text = .ok rest) :
    text = wanted :: rest := by
  match text with
  | [] => cases h
  | c :: cs =>
      rw [expectChar] at h
      split at h
      next hc =>
        cases h
        rw [hc]
      next => cases h

theorem escapes_unescape (c : Char) : Escapes c (unescape c) := by
  unfold unescape
  split
  next hn => exact hn ▸ .newline
  next hn =>
    split
    next ht => exact ht ▸ .tab
    next ht =>
      split
      next hr => exact hr ▸ .carriageReturn
      next hr => exact .other hn ht hr

theorem quoted_of_stringRest {read : Text} (h : stringRest read text = some (s, rest)) :
    ∃ written meant, Quoted written meant ∧ s = String.ofList (read.reverse ++ meant) ∧
      text = written ++ '"' :: rest := by
  fun_induction stringRest read text with
  | case1 => cases h
  | case2 read cs =>
      cases h
      exact ⟨[], [], .nil, by rw [List.append_nil], rfl⟩
  | case3 read c cs ih =>
      have ⟨written, meant, hquoted, hs, hcs⟩ := ih h
      have hescaped := Quoted.escaped (escapes_unescape c) hquoted
      refine ⟨'\\' :: c :: written, unescape c :: meant, hescaped, ?_, ?_⟩
      · simpa using hs
      · simp [hcs]
  | case4 read c cs hquote hescape ih =>
      have ⟨written, meant, hquoted, hs, hcs⟩ := ih h
      have hbackslash : c ≠ '\\' := by
        rintro rfl
        match cs with
        | [] => simp [stringRest] at h
        | d :: cs => exact hescape d cs rfl rfl
      refine ⟨c :: written, c :: meant, .raw hquote hbackslash hquoted, ?_, ?_⟩
      · simpa using hs
      · simp [hcs]

theorem isString_of_stringLiteral (hhead : text.head? = some '"')
    (h : stringLiteral text = .ok (s, rest)) : ∃ word, IsString word s ∧ text = word ++ rest := by
  match text with
  | [] => cases hhead
  | c :: cs =>
      obtain rfl := Option.some.inj hhead
      unfold stringLiteral at h
      split at h
      next r hr =>
        cases h
        obtain ⟨written, meant, hquoted, rfl, hcs⟩ := quoted_of_stringRest hr
        rw [List.tail_cons] at hcs
        refine ⟨'"' :: written ++ ['"'], .quotes hquoted, ?_⟩
        rw [hcs]
        simp
      next => cases h

/-- A number behind its sign. -/
def splitUnsigned (sign body : Text) : Text × Text :=
  match body.dropWhile Char.isDigit with
  | '.' :: cs =>
      (sign ++ body.takeWhile Char.isDigit ++ '.' :: cs.takeWhile Char.isDigit,
        cs.dropWhile Char.isDigit)
  | cs => (sign ++ body.takeWhile Char.isDigit, cs)

theorem splitNumber_minus (body : Text) :
    splitNumber ('-' :: body) = splitUnsigned ['-'] body := rfl

theorem splitNumber_of_ne (h : text.head? ≠ some '-') :
    splitNumber text = splitUnsigned [] text := by
  match text with
  | [] => rfl
  | c :: cs =>
      have hc : c ≠ '-' := fun hc => h (congrArg some hc)
      rw [splitNumber.eq_def]
      split
      next sign body hsign =>
        split at hsign
        next cs heq => exact absurd (List.cons.inj heq).1 hc
        next =>
          cases hsign
          rfl

theorem isNumeral_of_splitUnsigned {sign body literal : Text} (hsign : sign = [] ∨ sign = ['-'])
    (h : splitUnsigned sign body = (literal, rest)) :
    IsNumeral literal ∧ sign ++ body = literal ++ rest := by
  have ⟨hdigits, hbody⟩ := exists_digits body
  unfold splitUnsigned at h
  split at h
  next cs hdrop =>
    cases h
    have ⟨hdecimals, hcs⟩ := exists_digits cs
    rw [hdrop] at hbody
    constructor
    · exact .fraction hsign hdigits hdecimals
    · calc sign ++ body = sign ++ (body.takeWhile Char.isDigit ++ '.' :: cs) := by rw [← hbody]
        _ = sign ++ (body.takeWhile Char.isDigit ++
            '.' :: (cs.takeWhile Char.isDigit ++ cs.dropWhile Char.isDigit)) := by rw [← hcs]
        _ = _ := by simp only [List.append_assoc, List.cons_append]
  next =>
    cases h
    constructor
    · exact .whole hsign hdigits
    · rw [List.append_assoc, ← hbody]

theorem isNumeral_of_splitNumber {literal : Text} (h : splitNumber text = (literal, rest)) :
    IsNumeral literal ∧ text = literal ++ rest := by
  by_cases hminus : text.head? = some '-'
  · rw [List.eq_cons_of_mem_head? hminus, splitNumber_minus] at h
    rw [List.eq_cons_of_mem_head? hminus]
    exact isNumeral_of_splitUnsigned (.inr rfl) h
  · rw [splitNumber_of_ne hminus] at h
    exact isNumeral_of_splitUnsigned (.inl rfl) h

theorem ofText?_nil : Number.ofText? [] = none := by
  decide

theorem isNumeral_of_numberLiteral {c : Char} {cs : Text} {n : Number}
    (h : numberLiteral (c :: cs) = .ok (n, rest)) :
    ∃ word, IsNumeral (c :: word) ∧ Number.ofText? (c :: word) = some n ∧ cs = word ++ rest := by
  cases hsplit : splitNumber (c :: cs) with
  | mk literal behind =>
  have ⟨hnumeral, htext⟩ := isNumeral_of_splitNumber hsplit
  simp only [numberLiteral, hsplit] at h
  split at h
  next m hm =>
    cases h
    match literal with
    | [] => rw [ofText?_nil] at hm; cases hm
    | d :: word =>
        obtain ⟨rfl, hcs⟩ := List.cons.inj htext
        exact ⟨word, hnumeral, hm, hcs⟩
  next => cases h

theorem isSubscript_of_index? {digits : Text} {n : Nat} (h : index? digits = some n) :
    IsSubscript digits (.index n) := by
  unfold index? at h
  split at h
  next hdigits =>
    cases h
    have ⟨hne, hall, hlt⟩ := hdigits
    exact .index hne (fun c hc => List.all_eq_true.mp hall c hc) hlt
  next => cases h

theorem isSubscript_of_bracketSegment {segment : PathSegment}
    (h : bracketSegment text = .ok (segment, rest)) :
    ∃ inside, IsSubscript inside segment ∧ text = inside ++ rest := by
  unfold bracketSegment at h
  split at h
  next hhead =>
    have ⟨⟨name, _⟩, hname, h⟩ := bind_eq_ok_iff.mp h
    cases h
    have ⟨word, hword, htext⟩ := isString_of_stringLiteral hhead hname
    exact ⟨word, .key hword, htext⟩
  next =>
    have ⟨_, htext⟩ := exists_digits text
    dsimp only at h
    split at h
    next n hn =>
      cases h
      exact ⟨_, isSubscript_of_index? hn, htext⟩
    next => cases h

theorem isPath_of_pathRest {fuel : Nat} {read segments : List PathSegment}
    (h : pathRest fuel read text = .ok (segments, rest)) :
    ∃ word later, IsPath word later ∧ segments = read.reverse ++ later ∧ text = word ++ rest := by
  induction fuel generalizing read text with
  | zero =>
      cases h
      exact ⟨[], [], .nil, by simp, rfl⟩
  | succ fuel ih =>
      unfold pathRest at h
      split at h
      next cs =>
        have ⟨⟨name, behind⟩, hname, hlater⟩ := bind_eq_ok_iff.mp h
        obtain ⟨word, hword, rfl, rfl⟩ := isIdentifier_of_identifier hname
        obtain ⟨tail, later, htail, rfl, rfl⟩ := ih hlater
        exact ⟨_, _, .dot hword htail, by simp, by simp⟩
      next cs =>
        have ⟨⟨segment, behind⟩, hsegment, h⟩ := bind_eq_ok_iff.mp h
        have ⟨after, hafter, hlater⟩ := bind_eq_ok_iff.mp h
        have ⟨before, hbefore, hcs⟩ := exists_blanks cs
        have ⟨inside, hinside, hskip⟩ := isSubscript_of_bracketSegment hsegment
        have ⟨between, hbetween, hbehind⟩ := exists_blanks behind
        obtain ⟨tail, later, htail, rfl, rfl⟩ := ih hlater
        rw [eq_cons_of_expectChar hafter] at hbehind
        rw [hskip, hbehind] at hcs
        refine ⟨_, _, .bracket hbefore hinside hbetween htail, by simp, ?_⟩
        rw [hcs]
        simp
      next =>
        cases h
        exact ⟨[], [], .nil, by simp, rfl⟩

theorem isPath_of_path {segments : List PathSegment} (h : path text = .ok (segments, rest)) :
    ∃ word later, ∃ tail, IsIdentifier word ∧ IsPath tail later ∧
      segments = .key (String.ofList word) :: later ∧ text = word ++ tail ++ rest := by
  have ⟨⟨name, behind⟩, hname, hlater⟩ := bind_eq_ok_iff.mp h
  obtain ⟨word, hword, rfl, rfl⟩ := isIdentifier_of_identifier hname
  obtain ⟨tail, later, htail, rfl, rfl⟩ := isPath_of_pathRest hlater
  exact ⟨word, later, tail, hword, htail, rfl, (List.append_assoc ..).symm⟩

section

variable {σ : Type} {close : Char} {item : σ → Text → Except Fault (σ × Text)} {read read' : σ}

/-- What holds of each item that is read holds of all items between the brackets, and the state is
what adding them one by one gives. -/
theorem enclosed_of_separated (add : σ → Item → σ) (P : Item → Prop) {fuel : Nat}
    (hitem : ∀ read text read' rest, item read text = .ok (read', rest) →
      ∃ i : Item, P i ∧ read' = add read i ∧ text = i.source ++ rest)
    (h : separated close item fuel read text = .ok (read', rest)) :
    ∃ (items : List Item) (word : Text), (∀ i ∈ items, P i) ∧
      Enclosed close (items.map Item.source) word ∧ read' = items.foldl add read ∧
      text = word ++ rest := by
  induction fuel generalizing read text with
  | zero => cases h
  | succ fuel ih =>
      have ⟨before, hbefore, htext⟩ := exists_blanks text
      unfold separated at h
      dsimp only at h
      split at h
      next hhead =>
        cases h
        rw [List.eq_cons_of_mem_head? hhead] at htext
        exact ⟨[], before ++ [close], by simp, .nil hbefore, rfl, htext.trans (by simp)⟩
      next =>
        have ⟨⟨middle, behind⟩, hmiddle, h⟩ := bind_eq_ok_iff.mp h
        have ⟨i, hi, hadd, hskip⟩ := hitem _ _ _ _ hmiddle
        have ⟨after, hafter, hbehind⟩ := exists_blanks behind
        rw [hskip, hbehind] at htext
        dsimp only at h
        split at h
        next hcomma =>
          rw [List.eq_cons_of_mem_head? hcomma] at htext
          have ⟨items, word, hitems, henclosed, hread, htail⟩ := ih h
          refine ⟨i :: items, before ++ i.source ++ after ++ ',' :: word, ?_, ?_, ?_, ?_⟩
          · exact List.forall_mem_cons.mpr ⟨hi, hitems⟩
          · exact .cons hbefore hafter henclosed
          · rw [hread, hadd, List.foldl_cons]
          · exact htext.trans (by simp [htail])
        next =>
          split at h
          next hclose =>
            cases h
            rw [List.eq_cons_of_mem_head? hclose] at htext
            refine ⟨[i], before ++ i.source ++ after ++ [close], ?_, ?_, hadd, ?_⟩
            · simpa using hi
            · exact .last hbefore hafter
            · exact htext.trans (by simp)
          next => cases h

end

namespace Item

/-- The entry of an item joins those before it, of which `read.2` had no name. -/
def add (read : Entries Value × Nat) (item : Item) : Entries Value × Nat :=
  match item.name with
  | some name => (read.1.insert name item.value, read.2)
  | none => (read.1.insert (toString read.2) item.value, read.2 + 1)

theorem foldl_add (read : Entries Value × Nat) (items : List Item) :
    (items.foldl add read).1 = read.1.insertAll (entries read.2 items) := by
  induction items generalizing read with
  | nil => rfl
  | cons item items ih =>
      rw [List.foldl_cons, ih]
      cases hname : item.name with
      | some name =>
          simp only [add, entries, hname]
          rfl
      | none =>
          simp only [add, entries, hname]
          rfl

/-- The entry of an item that has a name. -/
def addNamed (read : Entries Value) (item : Item) : Entries Value :=
  (add (read, 0) item).1

theorem foldl_addNamed {items : List Item} (h : ∀ item ∈ items, item.name.isSome)
    (read : Entries Value) : items.foldl addNamed read = read.insertAll (entries 0 items) := by
  induction items generalizing read with
  | nil => rfl
  | cons item items ih =>
      have ⟨hitem, hitems⟩ := List.forall_mem_cons.mp h
      have ⟨name, hname⟩ := Option.isSome_iff_exists.mp hitem
      rw [List.foldl_cons, ih hitems]
      simp only [addNamed, add, entries, hname]
      rfl

end Item

theorem isSome_of_isKey {label : Text} {name : Option String} (h : IsKey label name) :
    name.isSome := by
  cases h with
  | identifier => rfl
  | string => rfl

section

/-- The reader passes a text that denotes what it gives. -/
def IsSound (value : Text → Except Fault (Value × Text)) : Prop :=
  ∀ text v rest, value text = .ok (v, rest) → ∃ word, Denotes word v ∧ text = word ++ rest

variable {value : Text → Except Fault (Value × Text)}

theorem item_of_arrayItem {read read' : List Value}
    (hvalue : IsSound value) (h : arrayItem value read text = .ok (read', rest)) :
    ∃ i : Item, (IsBare i.label i.name ∧ Denotes i.text i.value) ∧ read' = i.value :: read ∧
      text = i.source ++ rest := by
  have ⟨⟨v, behind⟩, hv, h⟩ := bind_eq_ok_iff.mp h
  cases h
  obtain ⟨word, hword, rfl⟩ := hvalue _ _ _ hv
  exact ⟨⟨[], none, word, v⟩, ⟨.nil, hword⟩, rfl, rfl⟩

/-- A sign with blanks around it, behind a word. -/
theorem exists_label {wanted : Char} {behind after : Text} (word : Text)
    (h : expectChar wanted behind.skipBlanks = .ok after) :
    ∃ between before, Blanks between ∧ Blanks before ∧
      word ++ behind = word ++ between ++ wanted :: before ++ after.skipBlanks := by
  have ⟨between, hbetween, hbehind⟩ := exists_blanks behind
  have ⟨before, hbefore, hafter⟩ := exists_blanks after
  refine ⟨between, before, hbetween, hbefore, ?_⟩
  rw [eq_cons_of_expectChar h] at hbehind
  calc word ++ behind = word ++ (between ++ wanted :: after) := by rw [← hbehind]
    _ = word ++ (between ++ wanted :: (before ++ after.skipBlanks)) := by rw [← hafter]
    _ = word ++ between ++ wanted :: before ++ after.skipBlanks := by simp

theorem isKey_of_mapItem {key : String} {behind after : Text}
    (hkey : (if text.head? = some '"' then stringLiteral text else identifier text) =
      .ok (key, behind)) (hcolon : expectChar ':' behind.skipBlanks = .ok after) :
    ∃ label, IsKey label (some key) ∧ text = label ++ after.skipBlanks := by
  split at hkey
  next hhead =>
    obtain ⟨word, hword, rfl⟩ := isString_of_stringLiteral hhead hkey
    have ⟨between, before, hbetween, hbefore, htext⟩ := exists_label word hcolon
    exact ⟨_, .string hword hbetween hbefore, htext⟩
  next =>
    obtain ⟨word, hword, rfl, rfl⟩ := isIdentifier_of_identifier hkey
    have ⟨between, before, hbetween, hbefore, htext⟩ := exists_label word hcolon
    exact ⟨_, .identifier hword hbetween hbefore, htext⟩

theorem mapItem_eq (read : Entries Value) (text : Text) :
    mapItem value read text =
      (if text.head? = some '"' then stringLiteral text else identifier text) >>= fun key =>
        expectChar ':' key.2.skipBlanks >>= fun rest =>
          value rest.skipBlanks >>= fun v => .ok (read.insert key.1 v.1, v.2) := by
  unfold mapItem
  split
  next => rfl
  next => rfl

theorem item_of_mapItem {read read' : Entries Value}
    (hvalue : IsSound value) (h : mapItem value read text = .ok (read', rest)) :
    ∃ i : Item, (IsKey i.label i.name ∧ Denotes i.text i.value) ∧ read' = Item.addNamed read i ∧
      text = i.source ++ rest := by
  rw [mapItem_eq] at h
  have ⟨⟨key, behind⟩, hkey, h⟩ := bind_eq_ok_iff.mp h
  have ⟨after, hafter, h⟩ := bind_eq_ok_iff.mp h
  have ⟨⟨v, last⟩, hv, h⟩ := bind_eq_ok_iff.mp h
  cases h
  have ⟨label, hlabel, htext⟩ := isKey_of_mapItem hkey hafter
  have ⟨word, hword, hrest⟩ := hvalue _ _ _ hv
  refine ⟨⟨label, some key, word, v⟩, ⟨hlabel, hword⟩, rfl, ?_⟩
  rw [htext, hrest, Item.source, List.append_assoc]

theorem isName_of_identifier {after behind : Text} (hname : identifier text = .ok (name, behind))
    (hequals : expectChar '=' behind.skipBlanks = .ok after) :
    ∃ label, IsName label (some name) ∧ text = label ++ after.skipBlanks := by
  obtain ⟨word, hword, rfl, rfl⟩ := isIdentifier_of_identifier hname
  have ⟨between, before, hbetween, hbefore, htext⟩ := exists_label word hequals
  exact ⟨_, .identifier hword hbetween hbefore, htext⟩

theorem item_of_callItem {read read' : Entries Value × Nat}
    (hvalue : IsSound value) (h : callItem value read text = .ok (read', rest)) :
    ∃ i : Item, (IsOptionalName i.label i.name ∧ Denotes i.text i.value) ∧ read' = Item.add read i ∧
      text = i.source ++ rest := by
  unfold callItem at h
  split at h
  next =>
    have ⟨⟨name, behind⟩, hname, h⟩ := bind_eq_ok_iff.mp h
    have ⟨after, hafter, h⟩ := bind_eq_ok_iff.mp h
    have ⟨⟨v, last⟩, hv, h⟩ := bind_eq_ok_iff.mp h
    cases h
    have ⟨label, hlabel, htext⟩ := isName_of_identifier hname hafter
    have ⟨word, hword, hrest⟩ := hvalue _ _ _ hv
    refine ⟨⟨label, some name, word, v⟩, ⟨.name hlabel, hword⟩, rfl, ?_⟩
    rw [htext, hrest, Item.source, List.append_assoc]
  next =>
    have ⟨⟨v, last⟩, hv, h⟩ := bind_eq_ok_iff.mp h
    cases h
    obtain ⟨word, hword, rfl⟩ := hvalue _ _ _ hv
    exact ⟨⟨[], none, word, v⟩, ⟨.bare .nil, hword⟩, rfl, rfl⟩

theorem denotes_of_array {items : List Value}
    (hvalue : IsSound value) (h : bracketed ']' (arrayItem value) [] text = .ok (items, rest)) :
    ∃ word, Denotes ('[' :: word) (.array items.reverse) ∧ text = word ++ rest := by
  obtain ⟨read, word, hall, henclosed, rfl, htext⟩ :=
    enclosed_of_separated (fun read i => i.value :: read)
      (fun i => IsBare i.label i.name ∧ Denotes i.text i.value)
      (fun _ _ _ _ => item_of_arrayItem hvalue) h
  rw [List.foldl_flip_cons_eq_append, List.append_nil, List.reverse_reverse]
  exact ⟨word, .array (fun i hi => (hall i hi).1) (fun i hi => (hall i hi).2) henclosed, htext⟩

theorem denotes_of_map {entries : Entries Value}
    (hvalue : IsSound value) (h : bracketed '\x7d' (mapItem value) [] text = .ok (entries, rest)) :
    ∃ word, Denotes ('\x7b' :: word) (.map entries) ∧ text = word ++ rest := by
  obtain ⟨read, word, hall, henclosed, rfl, htext⟩ :=
    enclosed_of_separated Item.addNamed (fun i => IsKey i.label i.name ∧ Denotes i.text i.value)
      (fun _ _ _ _ => item_of_mapItem hvalue) h
  rw [Item.foldl_addNamed fun i hi => isSome_of_isKey (hall i hi).1]
  exact ⟨word, .map (fun i hi => (hall i hi).1) (fun i hi => (hall i hi).2) henclosed, htext⟩

theorem denotes_of_call {name : Text} {arguments : Entries Value × Nat}
    (hvalue : IsSound value) (hname : IsIdentifier name) (hreserved : String.ofList name ∉ reserved)
    (h : bracketed ')' (callItem value) ([], 0) text = .ok (arguments, rest)) :
    ∃ word, Denotes (name ++ '(' :: word) (.call (String.ofList name) arguments.1) ∧
      text = word ++ rest := by
  obtain ⟨read, word, hall, henclosed, rfl, htext⟩ :=
    enclosed_of_separated Item.add
      (fun i => IsOptionalName i.label i.name ∧ Denotes i.text i.value)
      (fun _ _ _ _ => item_of_callItem hvalue) h
  rw [Item.foldl_add]
  exact ⟨word, .call hname hreserved (fun i hi => (hall i hi).1) (fun i hi => (hall i hi).2)
    henclosed, htext⟩

end

theorem denotes_of_word {fuel : Nat} {v : Value} {behind : Text}
    (hvalue : IsSound (value .plain fuel)) (hname : identifier? text = some (name, behind))
    (h : (if name = "true" then .ok (.bool true, behind)
      else if name = "false" then .ok (.bool false, behind)
      else if name = "null" then .ok (.null, behind)
      else if behind.head? = some '(' then do
        let (arguments, rest) ← bracketed ')' (callItem (value .plain fuel)) ([], 0) behind.tail
        return (.call name arguments.1, rest)
      else .error ⟨.unknownIdentifier name, text, behind⟩ : Except Fault (Value × Text)) =
        .ok (v, rest)) :
    ∃ word, Denotes word v ∧ text = word ++ rest := by
  obtain ⟨word, hword, rfl, htext⟩ := isIdentifier_of_identifier? hname
  have htoList : ∀ reading, String.ofList word = reading → reading.toList = word := by
    rintro _ rfl
    exact String.toList_ofList
  split_ifs at h with htrue hfalse hnull hcall
  · cases h
    exact ⟨_, .true, by rw [htoList _ htrue, htext]⟩
  · cases h
    exact ⟨_, .false, by rw [htoList _ hfalse, htext]⟩
  · cases h
    exact ⟨_, .null, by rw [htoList _ hnull, htext]⟩
  · obtain ⟨⟨arguments, _⟩, harguments, h⟩ := bind_eq_ok_iff.mp h
    cases h
    have hreserved : String.ofList word ∉ reserved := by
      simp [reserved, htrue, hfalse, hnull]
    have ⟨tail, htail, hbehind⟩ := denotes_of_call hvalue hword hreserved harguments
    refine ⟨_, htail, ?_⟩
    rw [htext, List.eq_cons_of_mem_head? hcall, hbehind]
    simp

/-- A value that is read has its text at the head of what was given. -/
theorem denotes_of_value {fuel : Nat} {v : Value} (h : value .plain fuel text = .ok (v, rest)) :
    ∃ word, Denotes word v ∧ text = word ++ rest := by
  induction fuel generalizing text v rest with
  | zero => cases h
  | succ fuel ih =>
      have hvalue : IsSound (value .plain fuel) := fun _ _ _ => ih
      match text with
      | [] => cases h
      | c :: cs =>
      rw [value] at h
      by_cases hstring : c = '"'
      · rw [if_pos hstring] at h
        have ⟨⟨s, _⟩, hs, h⟩ := bind_eq_ok_iff.mp h
        cases h
        have ⟨word, hword, htext⟩ := isString_of_stringLiteral (by rw [hstring]; rfl) hs
        exact ⟨word, .string hword, htext⟩
      rw [if_neg hstring] at h
      by_cases harray : c = '['
      · rw [if_pos harray] at h
        have ⟨⟨items, _⟩, hitems, h⟩ := bind_eq_ok_iff.mp h
        cases h
        have ⟨word, hword, htext⟩ := denotes_of_array hvalue hitems
        exact ⟨_, hword, by rw [harray, htext]; rfl⟩
      rw [if_neg harray] at h
      by_cases hmap : c = '\x7b'
      · rw [if_pos hmap] at h
        have ⟨⟨entries, _⟩, hentries, h⟩ := bind_eq_ok_iff.mp h
        cases h
        have ⟨word, hword, htext⟩ := denotes_of_map hvalue hentries
        exact ⟨_, hword, by rw [hmap, htext]; rfl⟩
      rw [if_neg hmap] at h
      by_cases hreference : c = '$'
      · rw [if_pos hreference] at h
        have ⟨⟨segments, _⟩, hsegments, h⟩ := bind_eq_ok_iff.mp h
        cases h
        obtain ⟨word, later, tail, hword, htail, rfl, htext⟩ := isPath_of_path hsegments
        exact ⟨_, .reference hword htail, by rw [hreference, htext]; rfl⟩
      rw [if_neg hreference] at h
      by_cases hnumber : (c = '-' || c.isDigit) = true
      · rw [if_pos hnumber] at h
        have ⟨⟨n, _⟩, hn, h⟩ := bind_eq_ok_iff.mp h
        cases h
        have ⟨word, hword, hn, htext⟩ := isNumeral_of_numberLiteral hn
        exact ⟨_, .number hword hnumber hn, by rw [htext]; rfl⟩
      rw [if_neg hnumber] at h
      cases hname : identifier? (c :: cs) with
      | none => rw [hname] at h; cases h
      | some read =>
          rw [hname] at h
          exact denotes_of_word hvalue hname h

theorem isAttribute_of_expression {behind after : Text} {v : Value}
    (hname : identifier? text = some (name, behind))
    (hequals : expectChar '=' behind.skipBlanks = .ok after)
    (hv : expression .plain after.skipBlanks = .ok (v, rest)) :
    ∃ word, IsAttribute word (.plain name v) ∧ text = word ++ rest := by
  have hidentifier : identifier text = .ok (name, behind) := by rw [identifier, hname]
  have ⟨label, hlabel, htext⟩ := isName_of_identifier hidentifier hequals
  have ⟨word, hword, hafter⟩ := denotes_of_value hv
  refine ⟨label ++ word, .plain hlabel hword, ?_⟩
  rw [htext, hafter, List.append_assoc]

theorem areAttributes_of_attributes {fuel : Nat} {read list : List Attribute}
    (h : attributes .plain fuel read text = .ok (list, rest)) :
    ∃ word later blanks, AreAttributes word later ∧ Blanks blanks ∧ list = read.reverse ++ later ∧
      text = word ++ blanks ++ rest := by
  induction fuel generalizing read text with
  | zero =>
      cases h
      exact ⟨[], [], [], .nil, blanks_nil, by simp, rfl⟩
  | succ fuel ih =>
      have ⟨before, hbefore, htext⟩ := exists_blanks text
      -- One more attribute behind the blanks, and the others behind it.
      have hcons : ∀ word behind a, IsAttribute word a → text.skipBlanks = word ++ behind →
          attributes .plain fuel (a :: read) behind = .ok (list, rest) →
          ∃ word later blanks, AreAttributes word later ∧ Blanks blanks ∧
            list = read.reverse ++ later ∧ text = word ++ blanks ++ rest := by
        intro word behind a hword hskip hrest
        obtain ⟨tail, later, blanks, htail, hblanks, rfl, rfl⟩ := ih hrest
        refine ⟨_, _, blanks, .cons hbefore hword htail, hblanks, by simp, ?_⟩
        exact htext.trans (by simp [hskip])
      unfold attributes at h
      split at h
      next hskip =>
        cases h
        rw [hskip] at htext
        exact ⟨[], [], before, .nil, hbefore, by simp, htext⟩
      next c cs hskip =>
        split_ifs at h with hslash hid hclass
        · cases h
          exact ⟨[], [], before, .nil, hbefore, by simp, htext.trans (by simp [hskip])⟩
        · obtain ⟨⟨name, behind⟩, hname, hlater⟩ := bind_eq_ok_iff.mp h
          obtain ⟨word, hword, rfl, rfl⟩ := isIdentifier_of_identifier hname
          exact hcons _ _ _ (.id hword) (by rw [hskip, hid]; rfl) hlater
        · obtain ⟨⟨name, behind⟩, hname, hlater⟩ := bind_eq_ok_iff.mp h
          obtain ⟨word, hword, rfl, rfl⟩ := isIdentifier_of_identifier hname
          exact hcons _ _ _ (.classed hword) (by rw [hskip, hclass]; rfl) hlater
        · split at h
          next => cases h
          next name behind hname =>
            have ⟨after, hafter, h⟩ := bind_eq_ok_iff.mp h
            have ⟨⟨v, last⟩, hv, hlater⟩ := bind_eq_ok_iff.mp h
            have ⟨word, hword, hcs⟩ := isAttribute_of_expression hname hafter hv
            exact hcons _ _ _ hword (by rw [hskip, hcs]) hlater

theorem blanks_of_expectEnd (h : expectEnd text = .ok ()) : Blanks text := by
  unfold expectEnd at h
  split at h
  next hskip =>
    have ⟨blanks, hblanks, htext⟩ := exists_blanks text
    rw [hskip, List.append_nil] at htext
    rwa [htext]
  next => cases h

theorem isPrimary_of_primary {list : List Attribute} (h : primary .plain text = .ok (list, rest)) :
    ∃ word, IsPrimary word list ∧ text = word ++ rest := by
  unfold primary at h
  split at h
  next =>
    have ⟨⟨v, behind⟩, hv, h⟩ := bind_eq_ok_iff.mp h
    cases h
    have ⟨word, hword, htext⟩ := denotes_of_value hv
    exact ⟨word, .value hword, htext⟩
  next =>
    cases h
    exact ⟨[], .nil, rfl⟩

theorem sentence_of_closingTag {before : Text} {d : Descriptor} (hbefore : Blanks before)
    (h : closingTag text = .ok d) : Sentence (before ++ '/' :: text) d := by
  have ⟨between, hbetween, htext⟩ := exists_blanks text
  unfold closingTag at h
  split at h
  next => cases h
  next name behind hname =>
    have ⟨_, hend, h⟩ := bind_eq_ok_iff.mp h
    cases h
    obtain ⟨word, hword, rfl, hskip⟩ := isIdentifier_of_identifier? hname
    rw [hskip] at htext
    have hsentence := Sentence.closing hbefore hbetween hword (blanks_of_expectEnd hend)
    rw [htext]
    simpa using hsentence

theorem sentence_of_namedTag {before word : Text} {d : Descriptor} (hbefore : Blanks before)
    (hword : IsIdentifier word) (h : namedTag .plain (String.ofList word) text = .ok d) :
    Sentence (before ++ word ++ text) d := by
  have ⟨between, hbetween, htext⟩ := exists_blanks text
  have ⟨⟨fs, behind⟩, hfirst, h⟩ := bind_eq_ok_iff.mp h
  have ⟨⟨os, last⟩, hothers, h⟩ := bind_eq_ok_iff.mp h
  have ⟨first, hfirst, hskip⟩ := isPrimary_of_primary hfirst
  obtain ⟨others, list, blanks, hothers, hblanks, rfl, hbehind⟩ := areAttributes_of_attributes hothers
  rw [hskip, hbehind] at htext
  dsimp only at h
  split at h
  next hslash =>
    have ⟨_, hend, h⟩ := bind_eq_ok_iff.mp h
    cases h
    have hsentence := Sentence.selfClosing hbefore hword hbetween hfirst hothers hblanks
      (blanks_of_expectEnd hend)
    rw [List.eq_cons_of_mem_head? hslash] at htext
    rw [htext]
    simpa using hsentence
  next =>
    have ⟨_, hend, h⟩ := bind_eq_ok_iff.mp h
    cases h
    have hafter := hblanks.append (blanks_of_expectEnd hend)
    have hsentence := Sentence.opening hbefore hword hbetween hfirst hothers hafter
    rw [htext]
    simpa using hsentence

theorem sentence_of_annotation {before : Text} {d : Descriptor} (hbefore : Blanks before)
    (hblank : ¬ Blanks text) (h : descriptor.annotation .plain text = .ok d) :
    Sentence (before ++ text) d := by
  have ⟨⟨list, last⟩, hlist, h⟩ := bind_eq_ok_iff.mp h
  have ⟨_, hend, h⟩ := bind_eq_ok_iff.mp h
  cases h
  obtain ⟨word, later, blanks, hword, hblanks, rfl, htext⟩ := areAttributes_of_attributes hlist
  have hafter := hblanks.append (blanks_of_expectEnd hend)
  cases hword with
  | nil =>
      rw [List.nil_append] at htext
      exact absurd (htext ▸ hafter) hblank
  | @cons inner word rest a list hinner ha hrest =>
      have hsentence := Sentence.annotating (List.cons_ne_nil a list)
        (.cons (hbefore.append hinner) ha hrest) hafter
      rw [htext]
      simpa using hsentence

theorem not_blanks_skipBlanks (h : text.skipBlanks ≠ []) : ¬ Blanks text.skipBlanks := by
  intro hblanks
  have hnil : text.skipBlanks.dropWhile Text.isBlank = [] := List.dropWhile_eq_nil_iff.mpr hblanks
  rw [Text.skipBlanks, List.dropWhile_idempotent] at hnil
  exact h hnil

theorem standard_eq_ok_iff {body : Text} {d : Descriptor} :
    standard body = .ok d ↔ descriptor .plain body = .ok d := by
  unfold standard read
  cases descriptor .plain body with
  | error fault => simp [Except.mapError]
  | ok read => simp [Except.mapError]

/-- A body that the built-in grammar accepts is a sentence, and means what the grammar answers. -/
theorem sentence_of_standard (body : Text) (d : Descriptor) (h : standard body = .ok d) :
    Sentence body d := by
  have ⟨before, hbefore, hbody⟩ := exists_blanks body
  have hdescriptor := standard_eq_ok_iff.mp h
  unfold descriptor at hdescriptor
  rw [hbody]
  split at hdescriptor
  next => cases hdescriptor
  next cs hskip =>
    rw [hskip]
    exact sentence_of_closingTag hbefore hdescriptor
  next text hnil hslash =>
    have hblanks := not_blanks_skipBlanks hnil
    split at hdescriptor
    next name rest hname =>
      split at hdescriptor
      next => exact sentence_of_annotation hbefore hblanks hdescriptor
      next =>
        obtain ⟨word, hword, rfl, hskip⟩ := isIdentifier_of_identifier? hname
        rw [hskip, ← List.append_assoc]
        exact sentence_of_namedTag hbefore hword hdescriptor
    next => exact sentence_of_annotation hbefore hblanks hdescriptor

theorem sentence_of_standard_nested :
    Sentence "b \"x\\n\" #i k=[$v[0],f(n = null,)] /".toList
      (.selfClosing "b" [⟨"primary", .plain, .string "x\n"⟩, ⟨"id", .id, .string "i"⟩,
        ⟨"k", .plain, .array [.reference [.key "v", .index 0], .call "f" [("n", .null)]]⟩]) := by
  have hread : standard "b \"x\\n\" #i k=[$v[0],f(n = null,)] /".toList =
      .ok (.selfClosing "b" [⟨"primary", .plain, .string "x\n"⟩, ⟨"id", .id, .string "i"⟩,
        ⟨"k", .plain, .array [.reference [.key "v", .index 0], .call "f" [("n", .null)]]⟩]) := by
    rfl
  exact sentence_of_standard _ _ hread

end TaggedText.Grammar
