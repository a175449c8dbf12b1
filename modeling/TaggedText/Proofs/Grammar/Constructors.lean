import Mathlib.Control.Basic
import TaggedText.Grammar

/-!
# What references and calls become

A grammar may be told what to make of a reference and of a call. Whatever that is, a body is read in
the same way: it is refused for the same reason at the same place, or its descriptor is the plain
one with the references and calls in it made over, the arguments of a call before the call.

Each reader is compared with the plain one. What one of them has read so far is at any time what the
other has read made over, and what is left of the text is the same, so every decision is the same.
Entries keep their keys, so one that replaces another does so in both.
-/
namespace TaggedText

/-- Entries with their values changed. -/
def Entries.mapValues {α β : Type} (f : α → β) (entries : Entries α) : Entries β :=
  entries.map (Prod.map id f)

theorem Entries.mapValues_insert {α β : Type} (f : α → β) (key : String) (value : α)
    (entries : Entries α) :
    (entries.insert key value).mapValues f = (entries.mapValues f).insert key (f value) := by
  induction entries with
  | nil => rfl
  | cons entry entries ih =>
      obtain ⟨k, v⟩ := entry
      simp only [mapValues] at ih
      by_cases hk : k = key <;> simp [mapValues, insert, hk, ih]

namespace Grammar

namespace Constructors

mutual

/-- The value with the references and calls in it made over, the innermost first. -/
def rebuild (make : Constructors) : Value → Value
  | .array items => .array (rebuildItems make items)
  | .map entries => .map (rebuildEntries make entries)
  | .reference path => make.reference path
  | .call name arguments => make.call name (rebuildEntries make arguments)
  | v => v

def rebuildItems (make : Constructors) : List Value → List Value
  | [] => []
  | item :: items => make.rebuild item :: rebuildItems make items

def rebuildEntries (make : Constructors) : List (String × Value) → List (String × Value)
  | [] => []
  | (key, value) :: rest => (key, make.rebuild value) :: rebuildEntries make rest

end

variable (make : Constructors)

theorem rebuildItems_eq (items : List Value) :
    make.rebuildItems items = items.map make.rebuild := by
  induction items with
  | nil => rfl
  | cons item items ih => rw [rebuildItems, ih, List.map_cons]

theorem rebuildEntries_eq (entries : Entries Value) :
    make.rebuildEntries entries = entries.mapValues make.rebuild := by
  induction entries with
  | nil => rfl
  | cons entry entries ih =>
      rw [rebuildEntries, ih]
      rfl

end Constructors

end Grammar

/-- The attribute with its value made over. -/
def Attribute.rebuild (make : Grammar.Constructors) (a : Attribute) : Attribute :=
  { a with value := make.rebuild a.value }

/-- The descriptor with the values of its attributes made over. -/
def Descriptor.rebuild (make : Grammar.Constructors) : Descriptor → Descriptor
  | opening name attributes => opening name (attributes.map (.rebuild make))
  | closing name => closing name
  | selfClosing name attributes => selfClosing name (attributes.map (.rebuild make))
  | annotating attributes => annotating (attributes.map (.rebuild make))

namespace Grammar

variable {σ τ : Type} {close : Char} {make : Constructors}

/-- Two readers that take the same decision. -/
theorem ite_map {p : Prop} [Decidable p] {f : σ → τ} {x y : Except Fault σ} {x' y' : Except Fault τ}
    (hx : x' = f <$> x) (hy : y' = f <$> y) :
    (if p then x' else y') = f <$> if p then x else y := by
  split
  · exact hx
  · exact hy

section

variable {f : σ → τ} {item : σ → Text → Except Fault (σ × Text)}
  {item' : τ → Text → Except Fault (τ × Text)}
  (hitem : ∀ read text, item' (f read) text = Prod.map f id <$> item read text)
include hitem

theorem separated_map (fuel : Nat) (read : σ) (text : Text) :
    separated close item' fuel (f read) text =
      Prod.map f id <$> separated close item fuel read text := by
  induction fuel generalizing read text with
  | zero => rfl
  | succ fuel ih =>
      refine ite_map rfl ?_
      rw [hitem, bind_map_left, map_bind]
      exact bind_congr fun r => ite_map (ih r.1 r.2.skipBlanks.tail) (ite_map rfl rfl)

theorem bracketed_map (empty : σ) (text : Text) :
    bracketed close item' (f empty) text = Prod.map f id <$> bracketed close item empty text :=
  separated_map hitem (text.length + 1) empty text

end

section

variable {value value' : Text → Except Fault (Value × Text)}
  (hvalue : ∀ text, value' text = Prod.map make.rebuild id <$> value text)
include hvalue

theorem arrayItem_rebuild (read : List Value) (text : Text) :
    arrayItem value' (read.map make.rebuild) text =
      Prod.map (List.map make.rebuild) id <$> arrayItem value read text := by
  simp [arrayItem, hvalue]

/-- A sign and a value behind it. -/
theorem behindSign_map {α β : Type} {f : α → β} {next : Value × Text → Except Fault α}
    {next' : Value × Text → Except Fault β} (sign : Char) (rest : Text)
    (hnext : ∀ r, next' (Prod.map make.rebuild id r) = f <$> next r) :
    (expectChar sign rest.skipBlanks >>= fun rest => value' rest.skipBlanks >>= next') =
      f <$> (expectChar sign rest.skipBlanks >>= fun rest => value rest.skipBlanks >>= next) := by
  rw [map_bind]
  refine bind_congr fun behind => ?_
  rw [hvalue, bind_map_left, map_bind]
  exact bind_congr hnext

theorem mapItem_rebuild (read : Entries Value) (text : Text) :
    mapItem value' (read.mapValues make.rebuild) text =
      Prod.map (Entries.mapValues make.rebuild) id <$> mapItem value read text := by
  have hentry : ∀ (key : String) (r : Value × Text),
      (pure ((read.mapValues make.rebuild).insert key (make.rebuild r.1), r.2) :
          Except Fault (Entries Value × Text)) =
        Prod.map (Entries.mapValues make.rebuild) id <$> pure (read.insert key r.1, r.2) := by
    intro key r
    rw [map_pure, Prod.map_apply, Entries.mapValues_insert, id]
  unfold mapItem
  split
  · rw [map_bind]
    exact bind_congr fun key => behindSign_map hvalue ':' key.2 (hentry key.1)
  · rw [map_bind]
    exact bind_congr fun key => behindSign_map hvalue ':' key.2 (hentry key.1)

theorem callItem_rebuild (read : Entries Value × Nat) (text : Text) :
    callItem value' (Prod.map (Entries.mapValues make.rebuild) id read) text =
      Prod.map (Prod.map (Entries.mapValues make.rebuild) id) id <$> callItem value read text := by
  have hargument : ∀ (name : String) (n : Nat) (r : Value × Text),
      (pure (((read.1.mapValues make.rebuild).insert name (make.rebuild r.1), n), r.2) :
          Except Fault ((Entries Value × Nat) × Text)) =
        Prod.map (Prod.map (Entries.mapValues make.rebuild) id) id <$>
          pure ((read.1.insert name r.1, n), r.2) := by
    intro name n r
    rw [map_pure, Prod.map_apply, Prod.map_apply, Entries.mapValues_insert, id, id]
  unfold callItem
  split
  · rw [map_bind]
    exact bind_congr fun name =>
      behindSign_map hvalue '=' name.2 (hargument name.1 read.2)
  · rw [hvalue, bind_map_left, map_bind]
    exact bind_congr (hargument (toString read.2) (read.2 + 1))

end

/-- A word is a value of its own or the name of a call, whatever is made of the call. -/
theorem word_rebuild {fuel : Nat} {name : String} {text rest : Text}
    (hvalue : ∀ text, value make fuel text = Prod.map make.rebuild id <$> value .plain fuel text) :
    (if name = "true" then .ok (.bool true, rest)
      else if name = "false" then .ok (.bool false, rest)
      else if name = "null" then .ok (.null, rest)
      else if rest.head? = some '(' then do
        let (arguments, rest) ← bracketed ')' (callItem (value make fuel)) ([], 0) rest.tail
        return (make.call name arguments.1, rest)
      else .error ⟨.unknownIdentifier name, text, rest⟩ : Except Fault (Value × Text)) =
    Prod.map make.rebuild id <$>
      if name = "true" then .ok (.bool true, rest)
      else if name = "false" then .ok (.bool false, rest)
      else if name = "null" then .ok (.null, rest)
      else if rest.head? = some '(' then do
        let (arguments, rest) ← bracketed ')' (callItem (value .plain fuel)) ([], 0) rest.tail
        return (Constructors.plain.call name arguments.1, rest)
      else .error ⟨.unknownIdentifier name, text, rest⟩ := by
  have hitems : bracketed ')' (callItem (value make fuel)) ([], 0) rest.tail =
      Prod.map (Prod.map (Entries.mapValues make.rebuild) id) id <$>
        bracketed ')' (callItem (value .plain fuel)) ([], 0) rest.tail :=
    bracketed_map (callItem_rebuild hvalue) ([], 0) rest.tail
  refine ite_map rfl (ite_map rfl (ite_map rfl (ite_map ?_ rfl)))
  rw [hitems, bind_map_left, map_bind]
  refine bind_congr fun r => ?_
  simp [Constructors.plain, Constructors.rebuild, Constructors.rebuildEntries_eq]

/-- A value is read as the plain reader reads it, and then made over. -/
theorem value_rebuild (make : Constructors) (fuel : Nat) (text : Text) :
    value make fuel text = Prod.map make.rebuild id <$> value .plain fuel text := by
  induction fuel generalizing text with
  | zero => rfl
  | succ fuel ih =>
      cases text with
      | nil => rfl
      | cons c cs =>
          have harray : bracketed ']' (arrayItem (value make fuel)) [] cs =
              Prod.map (List.map make.rebuild) id <$>
                bracketed ']' (arrayItem (value .plain fuel)) [] cs :=
            bracketed_map (arrayItem_rebuild ih) [] cs
          have hmap : bracketed '\x7d' (mapItem (value make fuel)) [] cs =
              Prod.map (Entries.mapValues make.rebuild) id <$>
                bracketed '\x7d' (mapItem (value .plain fuel)) [] cs :=
            bracketed_map (mapItem_rebuild ih) [] cs
          refine ite_map ?string (ite_map ?array (ite_map ?map (ite_map ?reference
            (ite_map ?number ?word))))
          case string => simp [Constructors.rebuild]
          case array => simp [harray, Constructors.rebuild, Constructors.rebuildItems_eq]
          case map => simp [hmap, Constructors.rebuild, Constructors.rebuildEntries_eq]
          case reference => simp [Constructors.plain, Constructors.rebuild]
          case number => simp [Constructors.rebuild]
          case word =>
            split
            · rfl
            · exact word_rebuild ih

theorem expression_rebuild (make : Constructors) (text : Text) :
    expression make text = Prod.map make.rebuild id <$> expression .plain text :=
  value_rebuild make (text.length + 1) text

/-- The attributes that were read so far, at the end of the list. -/
theorem reverse_rebuild (make : Constructors) (read : List Attribute) (text : Text) :
    (.ok ((read.map (.rebuild make)).reverse, text) : Except Fault (List Attribute × Text)) =
      Prod.map (List.map (.rebuild make)) id <$> .ok (read.reverse, text) := by
  rw [← List.map_reverse]
  rfl

theorem attributes_rebuild (make : Constructors) (fuel : Nat) (read : List Attribute)
    (text : Text) :
    attributes make fuel (read.map (.rebuild make)) text =
      Prod.map (List.map (.rebuild make)) id <$> attributes .plain fuel read text := by
  induction fuel generalizing read text with
  | zero => exact reverse_rebuild make read text
  | succ fuel ih =>
      unfold attributes
      split
      · exact reverse_rebuild make read []
      · next c cs heq =>
          refine ite_map (reverse_rebuild make read (c :: cs))
            (ite_map ?id (ite_map ?classed ?plain))
          case id =>
            rw [map_bind]
            exact bind_congr fun r => ih (.id r.1 :: read) r.2
          case classed =>
            rw [map_bind]
            exact bind_congr fun r => ih (.classed r.1 :: read) r.2
          case plain =>
            split
            · rfl
            · next name rest hname =>
                exact behindSign_map (expression_rebuild make) '=' rest fun r =>
                  ih (.plain name r.1 :: read) r.2

theorem attributeList_rebuild (make : Constructors) (text : Text) :
    attributeList make text =
      Prod.map (List.map (.rebuild make)) id <$> attributeList .plain text :=
  attributes_rebuild make (text.length + 1) [] text

theorem primary_rebuild (make : Constructors) (text : Text) :
    primary make text = Prod.map (List.map (.rebuild make)) id <$> primary .plain text := by
  unfold primary
  split
  · simp [expression_rebuild make, Attribute.rebuild, Attribute.plain]
  · rfl

theorem closingTag_rebuild (make : Constructors) (text : Text) :
    closingTag text = Descriptor.rebuild make <$> closingTag text := by
  unfold closingTag
  split
  · rfl
  · simp [Descriptor.rebuild]

theorem namedTag_rebuild (make : Constructors) (name : String) (text : Text) :
    namedTag make name text = Descriptor.rebuild make <$> namedTag .plain name text := by
  unfold namedTag
  simp only [primary_rebuild make, attributeList_rebuild make, map_bind, bind_map_left]
  refine bind_congr fun first => bind_congr fun others => ?_
  simp only [Prod.map_fst, Prod.map_snd, id]
  split <;> simp [Descriptor.rebuild]

theorem annotation_rebuild (make : Constructors) (text : Text) :
    descriptor.annotation make text =
      Descriptor.rebuild make <$> descriptor.annotation .plain text := by
  simp [descriptor.annotation, attributeList_rebuild make, Descriptor.rebuild]

theorem descriptor_rebuild (make : Constructors) (body : Text) :
    descriptor make body = Descriptor.rebuild make <$> descriptor .plain body := by
  unfold descriptor
  split
  · rfl
  · exact closingTag_rebuild make _
  · split
    · split
      · exact annotation_rebuild make _
      · exact namedTag_rebuild make _ _
    · exact annotation_rebuild make _

/-- Whatever references and calls become, a body is refused with the same error, or else means what
the plain reader says with its references and calls made over. -/
theorem read_eq_map (make : Constructors) (body : Text) :
    read make body = (read .plain body).map (.rebuild make) := by
  unfold read
  rw [descriptor_rebuild make]
  cases descriptor .plain body <;> rfl

/-- A call is made of arguments that were made over before. -/
example : Constructors.rebuild ⟨fun _ => .null, fun _ arguments => .map arguments⟩
    (.array [.call "f" [("0", .reference [.key "x"]), ("n", .call "g" [])]]) =
      .array [.map [("0", .null), ("n", .map [])]] :=
  rfl

end Grammar

end TaggedText
