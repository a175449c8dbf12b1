import TaggedText.Proofs.Json.Leaves

/-!
# JSON data read back from its text

Data whose numbers are integers of at most 64 bits, or not finite, is read back from the text
without spaces, if its containers do not nest too deep. What comes back is the data itself, with
null for the numbers that are not finite.

An item of a container is read up to the comma or bracket behind it, so the lists between brackets
are read back as soon as their items are. What remains is an induction on the data.
-/
namespace TaggedText

/-- A function that goes through a list item by item. -/
theorem eq_map {α β : Type} {f : α → β} {g : List α → List β} (hnil : g [] = [])
    (hcons : ∀ a l, g (a :: l) = f a :: g l) (l : List α) : g l = l.map f := by
  induction l with
  | nil => exact hnil
  | cons a l ih => rw [hcons, ih, List.map_cons]

def Number.isFinite : Number → Bool
  | finite _ _ => true
  | _ => false

namespace Json

mutual

/-- How many containers stand around one another at most. -/
def depth : Json → Nat
  | array items => depthItems items + 1
  | object members => depthMembers members + 1
  | _ => 0

def depthItems : List Json → Nat
  | [] => 0
  | item :: items => max item.depth (depthItems items)

def depthMembers : List (String × Json) → Nat
  | [] => 0
  | (_, value) :: members => max value.depth (depthMembers members)

end

/-- Data in which every number is an integer of 64 bits at most, or not finite. -/
inductive Integral : Json → Prop
  | null : Integral null
  | bool (b : Bool) : Integral (bool b)
  | integer {i : Int} : i.natAbs < wordLimit → Integral (integer i)
  | number {n : Number} : n.isFinite = false → Integral (number n)
  | string (s : String) : Integral (string s)
  | array {items : List Json} : (∀ item ∈ items, Integral item) → Integral (array items)
  | object {members : List (String × Json)} : (∀ member ∈ members, Integral member.2) →
      Integral (object members)

theorem integral_object_iff {members : List (String × Json)} :
    (object members).Integral ↔ ∀ member ∈ members, member.2.Integral := by
  constructor
  · intro h
    cases h with
    | object hmembers => exact hmembers
  · exact .object

mutual

/-- The data with null for the numbers that have no text of their own. -/
def settled : Json → Json
  | number n => if n.isFinite then number n else null
  | array items => array (settledItems items)
  | object members => object (settledMembers members)
  | json => json

def settledItems : List Json → List Json
  | [] => []
  | item :: items => item.settled :: settledItems items

def settledMembers : List (String × Json) → List (String × Json)
  | [] => []
  | (name, value) :: members => (name, value.settled) :: settledMembers members

end

theorem compressItems_eq (items : List Json) : compressItems items = items.map compress :=
  eq_map rfl (fun _ _ => rfl) items

theorem compressMembers_eq (members : List (String × Json)) :
    compressMembers members =
      members.map fun member => quote member.1 ++ ':' :: compress member.2 :=
  eq_map rfl (fun _ _ => rfl) members

theorem settledItems_eq (items : List Json) : settledItems items = items.map settled :=
  eq_map rfl (fun _ _ => rfl) items

theorem settledMembers_eq (members : List (String × Json)) :
    settledMembers members = members.map fun member => (member.1, member.2.settled) :=
  eq_map rfl (fun _ _ => rfl) members

theorem depthItems_le_iff {items : List Json} {n : Nat} :
    depthItems items ≤ n ↔ ∀ item ∈ items, item.depth ≤ n := by
  induction items with
  | nil => simp [depthItems]
  | cons item items ih => rw [depthItems, Nat.max_le, ih, List.forall_mem_cons]

theorem depthMembers_le_iff {members : List (String × Json)} {n : Nat} :
    depthMembers members ≤ n ↔ ∀ member ∈ members, member.2.depth ≤ n := by
  induction members with
  | nil => simp [depthMembers]
  | cons member members ih => rw [depthMembers, Nat.max_le, ih, List.forall_mem_cons]

section Lists

variable {α : Type} {item : Text → Option (α × Text)} {close : Char} {rest : Text}

/-- A text that the given reader takes for an item and that does not end the container. -/
structure IsItem (item : Text → Option (α × Text)) (close : Char) (text : Text) (a : α) :
    Prop where
  head : ∃ c cs, text = c :: cs ∧ isSpace c = false ∧ c ≠ close
  read : ∀ rest, EndsInteger rest → item (text ++ rest) = some (a, rest)

/-- What closes a container. -/
def IsClose (c : Char) : Prop :=
  c = ']' ∨ c = '\x7d'

theorem endsInteger_comma (rest : Text) : EndsInteger (',' :: rest) := by
  intro c hc
  cases hc
  decide

theorem IsClose.endsInteger (h : IsClose close) (rest : Text) : EndsInteger (close :: rest) := by
  intro c hc
  cases hc
  rcases h with rfl | rfl
  all_goals decide

theorem IsClose.ne_comma (h : IsClose close) : ',' ≠ close := by
  rcases h with rfl | rfl
  all_goals decide

theorem skipSpaces_cons {c : Char} (h : isSpace c = false) (rest : Text) :
    skipSpaces (c :: rest) = c :: rest :=
  List.dropWhile_cons_of_neg (by rw [h]; exact Bool.false_ne_true)

theorem IsClose.skipSpaces (h : IsClose close) (rest : Text) :
    skipSpaces (close :: rest) = close :: rest := by
  refine skipSpaces_cons ?_ rest
  rcases h with rfl | rfl
  all_goals decide

theorem IsItem.skipSpaces {text : Text} {a : α} (h : IsItem item close text a) (rest : Text) :
    skipSpaces (text ++ rest) = text ++ rest := by
  obtain ⟨c, cs, rfl, hspace, -⟩ := h.head
  exact skipSpaces_cons hspace (cs ++ rest)

theorem endsInteger_flatMap (h : IsClose close) (entries : List (Text × α)) (rest : Text) :
    EndsInteger (entries.flatMap (fun e => ',' :: e.1) ++ close :: rest) := by
  cases entries with
  | nil => exact h.endsInteger rest
  | cons e entries => exact endsInteger_comma _

/-- The items after the first are read up to what closes the container. -/
theorem readMore_append (hclose : IsClose close) {entries : List (Text × α)}
    (hitems : ∀ e ∈ entries, IsItem item close e.1 e.2) {fuel : Nat} (hfuel : entries.length < fuel)
    (read : List α) :
    readMore item close fuel read (entries.flatMap (fun e => ',' :: e.1) ++ close :: rest) =
      some (read.reverse ++ entries.map Prod.snd, rest) := by
  obtain ⟨fuel, rfl⟩ := Nat.exists_eq_succ_of_ne_zero (Nat.ne_zero_of_lt hfuel)
  induction entries generalizing fuel read with
  | nil =>
      rw [List.flatMap_nil, List.nil_append, readMore, hclose.skipSpaces]
      simp
  | cons e entries ih =>
      have ⟨hitem, hitems⟩ := List.forall_mem_cons.mp hitems
      have hlength := Nat.lt_of_succ_lt_succ hfuel
      obtain ⟨fuel, rfl⟩ := Nat.exists_eq_succ_of_ne_zero (Nat.ne_zero_of_lt hlength)
      have hread := hitem.read _ (endsInteger_flatMap hclose entries rest)
      rw [List.flatMap_cons, List.append_assoc, List.cons_append, readMore,
        skipSpaces_cons (by decide)]
      dsimp only
      rw [if_neg hclose.ne_comma, if_pos rfl, hitem.skipSpaces, hread]
      dsimp only
      rw [ih hitems _ fuel hlength]
      simp

theorem joinWith_comma (text : Text) (texts : List Text) :
    joinWith [','] (text :: texts) = text ++ texts.flatMap fun t => ',' :: t := by
  induction texts generalizing text with
  | nil => simp [joinWith]
  | cons next texts ih =>
      rw [joinWith, ih]
      · simp
      · exact nofun

theorem length_le_flatMap (entries : List (Text × α)) :
    entries.length ≤ (entries.flatMap fun e => ',' :: e.1).length := by
  induction entries with
  | nil => exact Nat.le_refl _
  | cons e entries ih =>
      rw [List.flatMap_cons, List.length_append, List.length_cons, List.length_cons]
      omega

/-- The items of a container are read up to what closes it. -/
theorem readItems_append (hclose : IsClose close) {entries : List (Text × α)}
    (hitems : ∀ e ∈ entries, IsItem item close e.1 e.2) :
    readItems item close (joinWith [','] (entries.map Prod.fst) ++ close :: rest) =
      some (entries.map Prod.snd, rest) := by
  cases entries with
  | nil =>
      rw [List.map_nil, joinWith, List.nil_append, readItems, hclose.skipSpaces]
      exact if_pos rfl
  | cons e entries =>
      have ⟨hitem, hitems⟩ := List.forall_mem_cons.mp hitems
      obtain ⟨c, cs, hhead, -, hne⟩ := hitem.head
      have hlength : entries.length <
          (entries.flatMap (fun e => ',' :: e.1) ++ close :: rest).length + 1 := by
        have hle := length_le_flatMap entries
        rw [List.length_append]
        omega
      have hread := hitem.read _ (endsInteger_flatMap hclose entries rest)
      rw [List.map_cons, joinWith_comma, List.append_assoc, List.flatMap_map, readItems,
        hitem.skipSpaces]
      rw [hhead, List.cons_append] at hread ⊢
      dsimp only
      rw [if_neg hne, hread]
      dsimp only
      rw [readMore_append hclose hitems hlength]
      rfl

end Lists

/-- A value that is no container is read whatever the depth. -/
theorem readValue_eq_readScalar {c : Char} (h : c ≠ '[' ∧ c ≠ '\x7b') (depth : Nat) (cs : Text) :
    readValue depth (c :: cs) = readScalar (c :: cs) := by
  cases depth with
  | zero => rfl
  | succ depth =>
      rw [readValue]
      · exact fun _ heq => h.1 (List.cons.inj heq).1
      · exact fun _ heq => h.2 (List.cons.inj heq).1

theorem readScalar_quote (s : String) (rest : Text) :
    readScalar (quote s ++ rest) = some (.string s, rest) := by
  obtain ⟨cs, hquote, hread⟩ := stringRest_quote s rest
  rw [hquote, List.cons_append, readScalar, if_pos rfl, hread]
  rfl

/-- What an integer begins with is no other character. -/
theorem ne_of_startsInteger {c d : Char} (hc : c = '-' ∨ c.isDigit) (hd : ¬ (d = '-' ∨ d.isDigit)) :
    c ≠ d := by
  rintro rfl
  exact hd hc

theorem readScalar_integerText {i : Int} (hi : i.natAbs < wordLimit) {rest : Text}
    (hrest : EndsInteger rest) : readScalar (integerText i ++ rest) = some (.integer i, rest) := by
  have hread := readNumber_integerText hi hrest
  obtain ⟨c, cs, hcs, hc⟩ := exists_integerText_eq_cons i
  rw [hcs, List.cons_append] at hread ⊢
  rw [readScalar, if_neg (ne_of_startsInteger hc (by decide)),
    if_neg (ne_of_startsInteger hc (by decide)), if_neg (ne_of_startsInteger hc (by decide)),
    if_neg (ne_of_startsInteger hc (by decide)), hread]

theorem numberText_of_not_finite {n : Number} (h : n.isFinite = false) :
    numberText n = ['n', 'u', 'l', 'l'] := by
  cases n with
  | finite negative rank => cases h
  | _ => rfl

/-- The text of data begins with no space and with nothing that closes a container. -/
theorem exists_compress_eq_cons {json : Json} (h : json.Integral) :
    ∃ c cs, json.compress = c :: cs ∧ isSpace c = false ∧ c ≠ ']' := by
  cases h with
  | null => exact ⟨_, _, rfl, by decide, by decide⟩
  | bool b => cases b <;> exact ⟨_, _, rfl, by decide, by decide⟩
  | @integer i hi =>
      obtain ⟨c, cs, hcs, hc⟩ := exists_integerText_eq_cons i
      have hspace : isSpace c = false := by
        simp [isSpace, ne_of_startsInteger hc]
      exact ⟨c, cs, hcs, hspace, ne_of_startsInteger hc (by decide)⟩
  | number hn => exact ⟨_, _, numberText_of_not_finite hn, by decide, by decide⟩
  | string s => exact ⟨_, _, rfl, by decide, by decide⟩
  | array hitems => exact ⟨_, _, rfl, by decide, by decide⟩
  | object hmembers => exact ⟨_, _, rfl, by decide, by decide⟩

/-- A member of an object is read back if its value is. -/
theorem isItem_member {value : Text → Option (Json × Text)} {name : String} {text : Text}
    {json : Json} (hhead : ∃ c cs, text = c :: cs ∧ isSpace c = false ∧ c ≠ ']')
    (hvalue : ∀ rest, EndsInteger rest → value (text ++ rest) = some (json, rest)) :
    IsItem (readMember value) '\x7d' (quote name ++ ':' :: text) (name, json) where
  head := ⟨_, _, rfl, by decide, by decide⟩
  read rest hrest := by
    obtain ⟨c, cs, htext, hspace, -⟩ := hhead
    obtain ⟨content, hquote, hname⟩ := stringRest_quote name (':' :: (text ++ rest))
    have hskip : skipSpaces (text ++ rest) = text ++ rest := by
      rw [htext]
      exact skipSpaces_cons hspace (cs ++ rest)
    rw [hquote, List.append_assoc, List.cons_append, List.cons_append, readMember, hname]
    dsimp only
    rw [skipSpaces_cons (by decide)]
    change (value (skipSpaces (text ++ rest))).map (fun r => ((name, r.1), r.2)) = _
    rw [hskip, hvalue rest hrest]
    rfl

/-- Data is read back from its text, up to what follows. -/
theorem readValue_compress {json : Json} {n : Nat} (hintegral : json.Integral)
    (hdepth : json.depth ≤ n) {rest : Text} (hrest : EndsInteger rest) :
    readValue n (json.compress ++ rest) = some (json.settled, rest) := by
  induction hintegral generalizing n rest with
  | null => exact readValue_eq_readScalar (by decide) n _
  | bool b => cases b <;> exact readValue_eq_readScalar (by decide) n _
  | @integer i hi =>
      obtain ⟨c, cs, hcs, hc⟩ := exists_integerText_eq_cons i
      have hread := readScalar_integerText hi hrest
      rw [compress]
      rw [hcs, List.cons_append] at hread ⊢
      rw [readValue_eq_readScalar ⟨ne_of_startsInteger hc (by decide),
        ne_of_startsInteger hc (by decide)⟩, hread]
      rfl
  | number hn =>
      rw [compress, numberText_of_not_finite hn, settled, hn, if_neg Bool.false_ne_true]
      exact readValue_eq_readScalar (by decide) n _
  | string s => exact (readValue_eq_readScalar (by decide) n _).trans (readScalar_quote s rest)
  | @array items hitems ih =>
      rw [depth] at hdepth
      obtain ⟨n, rfl⟩ := Nat.exists_eq_succ_of_ne_zero (Nat.ne_zero_of_lt hdepth)
      have hdepths := depthItems_le_iff.mp (Nat.le_of_succ_le_succ hdepth)
      have hentries : ∀ e ∈ items.map (fun item => (item.compress, item.settled)),
          IsItem (readValue n) ']' e.1 e.2 := by
        rw [List.forall_mem_map]
        exact fun item hitem => ⟨exists_compress_eq_cons (hitems item hitem),
          fun _ => ih item hitem (hdepths item hitem)⟩
      have hread := @readItems_append _ _ _ rest (.inl rfl) _ hentries
      rw [List.map_map, List.map_map] at hread
      rw [compress, compressItems_eq, settled, settledItems_eq, List.cons_append,
        List.append_assoc, readValue]
      exact congrArg (Option.map _) hread
  | @object members hmembers ih =>
      rw [depth] at hdepth
      obtain ⟨n, rfl⟩ := Nat.exists_eq_succ_of_ne_zero (Nat.ne_zero_of_lt hdepth)
      have hdepths := depthMembers_le_iff.mp (Nat.le_of_succ_le_succ hdepth)
      have hentries : ∀ e ∈ members.map (fun member =>
          (quote member.1 ++ ':' :: member.2.compress, member.1, member.2.settled)),
            IsItem (readMember (readValue n)) '\x7d' e.1 e.2 := by
        rw [List.forall_mem_map]
        exact fun member hmember => isItem_member (exists_compress_eq_cons (hmembers _ hmember))
          fun _ => ih member hmember (hdepths member hmember)
      have hread := @readItems_append _ _ _ rest (.inr rfl) _ hentries
      rw [List.map_map, List.map_map] at hread
      rw [compress, compressMembers_eq, settled, settledMembers_eq, List.cons_append,
        List.append_assoc, readValue]
      exact congrArg (Option.map _) hread

/-- Data is read back from its text. -/
theorem ofText?_compress {json : Json} (hintegral : json.Integral)
    (hdepth : json.depth ≤ nestingLimit) : ofText? json.compress = some json.settled := by
  have hread : readValue nestingLimit (json.compress ++ []) = some (json.settled, []) :=
    readValue_compress hintegral hdepth nofun
  obtain ⟨c, cs, hhead, hspace, -⟩ := exists_compress_eq_cons hintegral
  rw [List.append_nil, hhead] at hread
  rw [ofText?, hhead, skipSpaces_cons hspace, hread]
  rfl

end Json

end TaggedText
