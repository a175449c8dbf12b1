import TaggedText.Proofs.Grammar.Completeness

/-!
# Bodies whose attributes stand apart

The language lets an attribute follow what is before it without a blank, and then the readers may
divide the text in another way. With a blank before each attribute, and before the value and the
slash of a tag, a body is read as it is meant.
-/
namespace TaggedText.Grammar

variable {text rest word : Text} {c : Char} {fuel : Nat}

/-- Attributes, each behind at least one blank. -/
inductive AreSpaced : Text → List Attribute → Prop
  | nil : AreSpaced [] []
  | cons {blanks text rest : Text} {a : Attribute} {list : List Attribute} : Blanks blanks →
      blanks ≠ [] → IsAttribute text a → AreSpaced rest list →
      AreSpaced (blanks ++ text ++ rest) (a :: list)

/-- What may follow the attributes of a body: blanks, and a slash behind one. -/
structure EndsBody (rest : Text) : Prop where
  blank : ∀ c ∈ rest.head?, Text.isBlank c
  slash : ∀ c ∈ rest.skipBlanks.head?, c = '/'

theorem IsAttribute.exists_head {a : Attribute} (h : IsAttribute word a) :
    ∃ c cs, word = c :: cs ∧ (c = '#' ∨ c = '.' ∨ isIdentifierStart c) := by
  cases h with
  | id => exact ⟨'#', _, rfl, .inl rfl⟩
  | classed => exact ⟨'.', _, rfl, .inr (.inl rfl)⟩
  | plain hname =>
      have ⟨c, cs, hcs, hc⟩ := hname.exists_head
      rw [hcs]
      exact ⟨c, _, rfl, .inr (.inr hc)⟩

theorem IsAttribute.skipBlanks_append {a : Attribute} {blanks : Text} (h : IsAttribute word a)
    (hblanks : Blanks blanks) : Text.skipBlanks (blanks ++ (word ++ rest)) = word ++ rest := by
  have ⟨c, cs, hcs, hc⟩ := h.exists_head
  rw [Grammar.skipBlanks_append hblanks, hcs]
  apply skipBlanks_cons
  rcases hc with rfl | rfl | hc
  · decide
  · decide
  · exact not_isBlank_of_isIdentifierChar (isIdentifierChar_of_isIdentifierStart hc)

theorem AreSpaced.follows {list : List Attribute} (h : AreSpaced word list) (hrest : EndsBody rest) :
    Follows (word ++ rest) := by
  cases h with
  | nil =>
      constructor
      · exact fun c hc => .inl (hrest.blank c hc)
      · intro heq
        exact absurd (hrest.slash '=' heq) (by decide)
  | @cons blanks text tail a list hblanks hne ha _ =>
      constructor
      · rw [List.append_assoc, List.append_assoc]
        exact head?_blanks_append hblanks (fun c hc => .inl hc) fun hnil => absurd hnil hne
      · have ⟨c, cs, hcs, hc⟩ := ha.exists_head
        rw [List.append_assoc, List.append_assoc, ha.skipBlanks_append hblanks, hcs]
        intro heq
        cases heq
        exact absurd hc (by decide)

/-- One attribute, whatever stands before those that were read. -/
theorem attributes_cons {a : Attribute} {read : List Attribute} {blanks : Text}
    (hblanks : Blanks blanks) (ha : IsAttribute word a) (hrest : Follows rest) :
    attributes .plain (fuel + 1) read (blanks ++ (word ++ rest)) =
      attributes .plain fuel (a :: read) rest := by
  have hends : ∀ c ∈ rest.head?, ¬ isIdentifierChar c := fun c hc =>
    (hrest.ends c hc).not_isIdentifierChar
  rw [attributes, ha.skipBlanks_append hblanks]
  cases ha with
  | id hname =>
      change (identifier (_ ++ rest) >>= _) = _
      rw [identifier_append hname hends]
      rfl
  | classed hname =>
      change (identifier (_ ++ rest) >>= _) = _
      rw [identifier_append hname hends]
      rfl
  | @plain label text name v hname hdenotes =>
      have ⟨behind, after, hidentifier, hequals, hafter⟩ := exists_steps_of_isName rest hname hdenotes
      have ⟨c, cs, hcs, hc⟩ := hname.exists_head
      have hne : ∀ d, ¬ isIdentifierStart d → c ≠ d := by
        rintro d hd rfl
        exact hd hc
      have hlength : text.length < (text ++ rest).length + 1 := by
        rw [List.length_append]
        omega
      have hvalue : expression .plain (text ++ rest) = .ok (v, rest) :=
        value_of_denotes hdenotes hrest hlength
      rw [List.append_assoc]
      rw [hcs, List.cons_append] at hidentifier ⊢
      dsimp only
      rw [if_neg (hne _ (by decide)), if_neg (hne _ (by decide)), if_neg (hne _ (by decide)),
        hidentifier]
      change (expectChar '=' behind.skipBlanks >>= _) = _
      rw [hequals]
      change (expression .plain after.skipBlanks >>= _) = _
      rw [hafter, hvalue]
      rfl

theorem attributes_append {list read : List Attribute} (h : AreSpaced word list)
    (hrest : EndsBody rest) (hfuel : list.length < fuel) :
    attributes .plain fuel read (word ++ rest) = .ok (read.reverse ++ list, rest.skipBlanks) := by
  obtain ⟨fuel, rfl⟩ : ∃ n, fuel = n + 1 := ⟨fuel - 1, by omega⟩
  induction h generalizing read fuel with
  | nil =>
      rw [List.nil_append, attributes, List.append_nil]
      split
      next hskip => rw [hskip]
      next c cs hskip =>
        have hslash := hrest.slash c (by rw [hskip]; rfl)
        rw [if_pos hslash, hskip]
  | @cons blanks text tail a list hblanks _ ha htail ih =>
      have hfollows : Follows (tail ++ rest) := htail.follows hrest
      rw [List.append_assoc, List.append_assoc, attributes_cons hblanks ha hfollows]
      obtain ⟨fuel, rfl⟩ : ∃ n, fuel = n + 1 := ⟨fuel - 1, by simp at hfuel; omega⟩
      rw [ih fuel (by simpa using hfuel)]
      simp

theorem skipBlanks_skipBlanks (text : Text) : text.skipBlanks.skipBlanks = text.skipBlanks :=
  List.dropWhile_idempotent ..

theorem AreSpaced.length_le {list : List Attribute} (h : AreSpaced word list) :
    list.length ≤ (Text.skipBlanks (word ++ rest)).length := by
  induction h with
  | nil => exact Nat.zero_le _
  | @cons blanks text tail a list hblanks _ ha _ ih =>
      have ⟨c, cs, hcs, _⟩ := ha.exists_head
      have hle := ih.trans (Text.length_skipBlanks_le (tail ++ rest))
      rw [List.append_assoc, List.append_assoc, ha.skipBlanks_append hblanks, hcs]
      simp only [List.length_append, List.length_cons] at hle ⊢
      omega

/-- The attributes of a body are read alike with and without the blanks before them. -/
theorem attributeList_skipBlanks {list : List Attribute} (h : AreSpaced word list)
    (hrest : EndsBody rest) :
    attributeList .plain (Text.skipBlanks (word ++ rest)) = .ok (list, rest.skipBlanks) := by
  have hfuel : list.length < (Text.skipBlanks (word ++ rest)).length + 1 :=
    Nat.lt_succ_of_le h.length_le
  have hread : attributes .plain _ [] (word ++ rest) = _ := attributes_append h hrest hfuel
  rw [attributeList, attributes, skipBlanks_skipBlanks]
  rw [attributes] at hread
  exact hread

theorem attributeList_append {list : List Attribute} (h : AreSpaced word list)
    (hrest : EndsBody rest) : attributeList .plain (word ++ rest) = .ok (list, rest.skipBlanks) := by
  have hle : list.length ≤ (Text.skipBlanks (word ++ rest)).length := h.length_le
  have hfuel : list.length < (word ++ rest).length + 1 :=
    Nat.lt_succ_of_le (hle.trans (Text.length_skipBlanks_le _))
  exact attributes_append h hrest hfuel

theorem startsPrimary_append {v : Value} (h : Denotes word v) (hrest : Follows rest) :
    startsPrimary (word ++ rest) := by
  have hattribute := h.not_startsAttribute hrest
  have ⟨c, cs, hcs, hc⟩ := h.exists_head
  have hsign : ¬ (c = '/' || c = '#' || c = '.') = true := by
    simp only [Bool.or_eq_true, decide_eq_true_eq]
    rintro ((rfl | rfl) | rfl)
    all_goals exact absurd hc (by decide)
  rw [hcs, List.cons_append] at hattribute ⊢
  rw [startsPrimary, if_neg hsign]
  split
  · simpa using hattribute
  · rfl

theorem not_startsPrimary {list : List Attribute} (h : AreSpaced word list)
    (hrest : EndsBody rest) : ¬ startsPrimary (Text.skipBlanks (word ++ rest)) := by
  cases h with
  | nil =>
      rw [List.nil_append]
      match hskip : rest.skipBlanks with
      | [] => decide
      | c :: cs =>
          obtain rfl := hrest.slash c (by rw [hskip]; rfl)
          exact Bool.false_ne_true
  | @cons blanks text tail a list hblanks _ ha _ =>
      rw [List.append_assoc, List.append_assoc, ha.skipBlanks_append hblanks]
      cases ha with
      | id => exact Bool.false_ne_true
      | classed => exact Bool.false_ne_true
      | @plain label text name v hname =>
          have hattribute : startsAttribute (label ++ (text ++ (tail ++ rest))) :=
            startsAttribute_append hname
          have ⟨c, cs, hcs, hc⟩ := hname.exists_head
          rw [List.append_assoc]
          rw [hcs, List.cons_append] at hattribute ⊢
          rw [startsPrimary]
          split
          · exact Bool.false_ne_true
          · rw [hattribute]
            decide

/-- The value behind the name of a tag, with at least one blank between them. -/
inductive IsSpacedPrimary : Text → List Attribute → Prop
  | nil : IsSpacedPrimary [] []
  | value {blanks text : Text} {v : Value} : Blanks blanks → blanks ≠ [] → Denotes text v →
      IsSpacedPrimary (blanks ++ text) [⟨"primary", .plain, v⟩]

theorem namedTag_append {name : String} {first others : Text} {fs os : List Attribute}
    (hfirst : IsSpacedPrimary first fs) (hothers : AreSpaced others os) (hrest : EndsBody rest) :
    namedTag .plain name (first ++ (others ++ rest)) = (do
      if rest.skipBlanks.head? = some '/' then
        expectEnd rest.skipBlanks.tail
        return .selfClosing name (fs ++ os)
      else
        expectEnd rest.skipBlanks
        return .opening name (fs ++ os)) := by
  cases hfirst with
  | nil =>
      have hprimary : primary .plain (Text.skipBlanks (others ++ rest)) =
          .ok ([], Text.skipBlanks (others ++ rest)) :=
        if_neg (not_startsPrimary hothers hrest)
      rw [List.nil_append, namedTag, hprimary]
      change (attributeList .plain (Text.skipBlanks (others ++ rest)) >>= _) = _
      rw [attributeList_skipBlanks hothers hrest]
      rfl
  | @value blanks text v hblanks _ hdenotes =>
      have hfollows := hothers.follows hrest
      have hlength : text.length < (text ++ (others ++ rest)).length + 1 := by
        rw [List.length_append]
        omega
      have hvalue : expression .plain (text ++ (others ++ rest)) = .ok (v, others ++ rest) :=
        value_of_denotes hdenotes hfollows hlength
      have hprimary : primary .plain (text ++ (others ++ rest)) =
          .ok ([⟨"primary", .plain, v⟩], others ++ rest) := by
        rw [primary, if_pos (startsPrimary_append hdenotes hfollows), hvalue]
        rfl
      rw [List.append_assoc, namedTag, hdenotes.skipBlanks_append hblanks, hprimary]
      change (attributeList .plain (others ++ rest) >>= _) = _
      rw [attributeList_append hothers hrest]
      rfl

theorem IsSpacedPrimary.follows {list : List Attribute} (h : IsSpacedPrimary word list)
    (hrest : Follows rest) : Follows (word ++ rest) := by
  cases h with
  | nil => exact hrest
  | @value blanks text v hblanks hne hdenotes =>
      constructor
      · rw [List.append_assoc]
        exact head?_blanks_append hblanks (fun c hc => .inl hc) fun hnil => absurd hnil hne
      · have ⟨c, cs, hcs, hc⟩ := hdenotes.exists_head
        rw [List.append_assoc, hdenotes.skipBlanks_append hblanks, hcs]
        intro heq
        cases heq
        exact absurd hc (by decide)

/-- A body that begins with a name is a tag, unless the name is that of an attribute. -/
theorem descriptor_of_identifier (hword : IsIdentifier word) (hrest : Follows rest) :
    descriptor .plain (word ++ rest) = namedTag .plain (String.ofList word) rest := by
  have hends : ∀ c ∈ rest.head?, ¬ isIdentifierChar c := fun c hc =>
    (hrest.ends c hc).not_isIdentifierChar
  have hread := identifier?_append hword hends
  have hattribute := not_startsAttribute_append hword hends hrest.noName
  have ⟨c, cs, hcs, hc⟩ := hword.exists_head
  have hblank := not_isBlank_of_isIdentifierChar (isIdentifierChar_of_isIdentifierStart hc)
  rw [hcs, List.cons_append] at hread hattribute ⊢
  rw [descriptor, skipBlanks_cons hblank]
  split
  next heq => cases heq
  next heq =>
    cases heq
    exact absurd hc (by decide)
  next =>
    rw [hread]
    dsimp only
    rw [if_neg hattribute]

/-- A body that begins with an attribute consists of attributes. -/
theorem descriptor_of_attribute {a : Attribute} (ha : IsAttribute word a) :
    descriptor .plain (word ++ rest) = descriptor.annotation .plain (word ++ rest) := by
  have hskip : Text.skipBlanks (word ++ rest) = word ++ rest :=
    ha.skipBlanks_append blanks_nil
  rw [descriptor, hskip]
  cases ha with
  | id => rfl
  | classed => rfl
  | @plain label text name v hname =>
      have hattribute : startsAttribute (label ++ (text ++ rest)) := startsAttribute_append hname
      have ⟨c, cs, hcs, hc⟩ := hname.exists_head
      rw [List.append_assoc]
      split
      next heq =>
        rw [hcs] at heq
        cases heq
      next heq =>
        rw [hcs] at heq
        cases heq
        exact absurd hc (by decide)
      next =>
        split
        next => rw [if_pos hattribute]
        next => rfl

theorem annotation_append {a : Attribute} {others : Text} {list : List Attribute}
    (ha : IsAttribute word a) (hothers : AreSpaced others list) (hrest : EndsBody rest) :
    descriptor.annotation .plain (word ++ (others ++ rest)) = (do
      expectEnd rest.skipBlanks
      return .annotating (a :: list)) := by
  have hle : list.length ≤ (Text.skipBlanks (others ++ rest)).length := hothers.length_le
  have hfuel : list.length < (word ++ (others ++ rest)).length := by
    have ⟨c, cs, hcs, _⟩ := ha.exists_head
    have hshort := hle.trans (Text.length_skipBlanks_le _)
    rw [hcs, List.length_append, List.length_cons]
    omega
  have hread : attributeList .plain (word ++ (others ++ rest)) =
      .ok (a :: list, rest.skipBlanks) := by
    have hcons : attributes .plain ((word ++ (others ++ rest)).length + 1) []
        ([] ++ (word ++ (others ++ rest))) = _ :=
      attributes_cons blanks_nil ha (hothers.follows hrest)
    rw [List.nil_append] at hcons
    rw [attributeList, hcons]
    exact attributes_append hothers hrest hfuel
  rw [descriptor.annotation, hread]
  rfl

theorem descriptor_closing {name : Text} (hname : IsIdentifier name) :
    descriptor .plain ('/' :: name) = .ok (.closing (String.ofList name)) := by
  have hread : identifier? (name ++ []) = some (String.ofList name, []) :=
    identifier?_append hname fun c hc => by cases hc
  have hskip : Text.skipBlanks name = name := by
    have ⟨c, cs, hcs, hc⟩ := hname.exists_head
    rw [hcs]
    exact skipBlanks_cons (not_isBlank_of_isIdentifierChar (isIdentifierChar_of_isIdentifierStart hc))
  rw [List.append_nil] at hread
  rw [descriptor, skipBlanks_cons (by decide)]
  change closingTag name = _
  rw [closingTag, hskip, hread]
  rfl

/-- A body that begins with the name of a tag. -/
theorem descriptor_named {name first others rest : Text} {fs os : List Attribute}
    (hname : IsIdentifier name) (hfirst : IsSpacedPrimary first fs) (hothers : AreSpaced others os)
    (hrest : EndsBody rest) :
    descriptor .plain (name ++ (first ++ (others ++ rest))) = (do
      if rest.skipBlanks.head? = some '/' then
        expectEnd rest.skipBlanks.tail
        return .selfClosing (String.ofList name) (fs ++ os)
      else
        expectEnd rest.skipBlanks
        return .opening (String.ofList name) (fs ++ os)) := by
  rw [descriptor_of_identifier hname (hfirst.follows (hothers.follows hrest)),
    namedTag_append hfirst hothers hrest]

end TaggedText.Grammar
