import Mathlib
import TaggedText.Grammar

/-!
# The language of directives

The sentences of the grammar with their meaning, told apart from any way to read them. A relation
between a text and its meaning is given for each notion, from identifiers to whole bodies, and
blanks are written out wherever they may stand.

Arrays, maps and calls are lists of items between brackets. An item is a value behind a label: no
label in an array, a key and a colon in a map, and in a call a name and an equals sign or nothing.
An item without a name goes under its number among those without one.
-/
namespace TaggedText.Grammar

/-- Any number of blanks. -/
def Blanks (text : Text) : Prop :=
  ∀ c ∈ text, Text.isBlank c

/-- Any number of digits. -/
def Digits (text : Text) : Prop :=
  ∀ c ∈ text, c.isDigit

instance (text : Text) : Decidable (Digits text) :=
  decidable_of_decidable_of_iff (@List.all_eq_true _ Char.isDigit text)

/-- A letter or an underscore, and any number of letters, digits, underscores and hyphens. -/
def IsIdentifier : Text → Prop
  | [] => False
  | c :: cs => (c.isAlpha ∨ c = '_') ∧ ∀ d ∈ cs, d.isAlphanum ∨ d = '_' ∨ d = '-'

theorem isIdentifier_cons_iff {c : Char} {cs : Text} :
    IsIdentifier (c :: cs) ↔ isIdentifierStart c ∧ ∀ d ∈ cs, isIdentifierChar d := by
  simp [IsIdentifier, isIdentifierStart, isIdentifierChar, or_assoc]

instance : (text : Text) → Decidable (IsIdentifier text)
  | [] => .isFalse id
  | c :: cs =>
      decidable_of_decidable_of_iff
        ((and_congr_right' (@List.all_eq_true _ isIdentifierChar cs)).trans
          isIdentifier_cons_iff.symm :
            isIdentifierStart c ∧ cs.all isIdentifierChar ↔ _)

/-- What a character behind a backslash stands for. -/
inductive Escapes : Char → Char → Prop
  | newline : Escapes 'n' '\n'
  | tab : Escapes 't' '\t'
  | carriageReturn : Escapes 'r' '\r'
  | other {c : Char} : c ≠ 'n' → c ≠ 't' → c ≠ 'r' → Escapes c c

/-- What stands between two quotes, and what it means. -/
inductive Quoted : Text → Text → Prop
  | nil : Quoted [] []
  | raw {c : Char} {written meant : Text} : c ≠ '"' → c ≠ '\\' → Quoted written meant →
      Quoted (c :: written) (c :: meant)
  | escaped {c d : Char} {written meant : Text} : Escapes c d → Quoted written meant →
      Quoted ('\\' :: c :: written) (d :: meant)

/-- A string with its quotes. -/
inductive IsString : Text → String → Prop
  | quotes {written meant : Text} : Quoted written meant →
      IsString ('"' :: written ++ ['"']) (String.ofList meant)

/-- A sign that may be missing, digits, and a point with digits that may be missing. -/
inductive IsNumeral : Text → Prop
  | whole {sign digits : Text} : sign = [] ∨ sign = ['-'] → Digits digits →
      IsNumeral (sign ++ digits)
  | fraction {sign digits decimals : Text} : sign = [] ∨ sign = ['-'] → Digits digits →
      Digits decimals → IsNumeral (sign ++ digits ++ '.' :: decimals)

/-- What stands in the brackets of a path. -/
inductive IsSubscript : Text → PathSegment → Prop
  | key {text : Text} {name : String} : IsString text name → IsSubscript text (.key name)
  | index {digits : Text} : digits ≠ [] → Digits digits → Nat.ofDigitChars 10 digits 0 < 2 ^ 64 →
      IsSubscript digits (.index (Nat.ofDigitChars 10 digits 0))

/-- Segments behind the first name of a path. -/
inductive IsPath : Text → List PathSegment → Prop
  | nil : IsPath [] []
  | dot {name text : Text} {segments : List PathSegment} : IsIdentifier name →
      IsPath text segments →
      IsPath ('.' :: name ++ text) (.key (String.ofList name) :: segments)
  | bracket {before inside after text : Text} {segment : PathSegment}
      {segments : List PathSegment} : Blanks before → IsSubscript inside segment → Blanks after →
      IsPath text segments →
      IsPath ('[' :: before ++ inside ++ after ++ ']' :: text) (segment :: segments)

/-- A value between brackets, with what stands before it. -/
structure Item where
  label : Text
  name : Option String
  text : Text
  value : Value

namespace Item

/-- The item as written. -/
def source (item : Item) : Text :=
  item.label ++ item.text

/-- Items with their keys; `n` items without a name stand before them. -/
def entries : Nat → List Item → List (String × Value)
  | _, [] => []
  | n, item :: items =>
      match item.name with
      | some name => (name, item.value) :: entries n items
      | none => (toString n, item.value) :: entries (n + 1) items

end Item

/-- No label. -/
inductive IsBare : Text → Option String → Prop
  | nil : IsBare [] none

/-- The key of a map. -/
inductive IsKey : Text → Option String → Prop
  | identifier {name before after : Text} : IsIdentifier name → Blanks before → Blanks after →
      IsKey (name ++ before ++ ':' :: after) (some (String.ofList name))
  | string {text before after : Text} {name : String} : IsString text name → Blanks before →
      Blanks after → IsKey (text ++ before ++ ':' :: after) (some name)

/-- The name of an attribute or an argument. -/
inductive IsName : Text → Option String → Prop
  | identifier {name before after : Text} : IsIdentifier name → Blanks before → Blanks after →
      IsName (name ++ before ++ '=' :: after) (some (String.ofList name))

/-- The name of an argument, which may be missing. -/
inductive IsOptionalName : Text → Option String → Prop
  | bare {label : Text} {name : Option String} : IsBare label name → IsOptionalName label name
  | name {label : Text} {name : Option String} : IsName label name → IsOptionalName label name

/-- Items with commas between them up to a closing bracket. A comma may follow the last one. -/
inductive Enclosed (close : Char) : List Text → Text → Prop
  | nil {blanks : Text} : Blanks blanks → Enclosed close [] (blanks ++ [close])
  | last {before item after : Text} : Blanks before → Blanks after →
      Enclosed close [item] (before ++ item ++ after ++ [close])
  | cons {before item after text : Text} {items : List Text} : Blanks before → Blanks after →
      Enclosed close items text →
      Enclosed close (item :: items) (before ++ item ++ after ++ ',' :: text)

/-- Identifiers that are values. -/
def reserved : List String :=
  ["true", "false", "null"]

/-- Whether a number begins with such a character. -/
def startsNumber (c : Char) : Bool :=
  c = '-' || c.isDigit

inductive Denotes : Text → Value → Prop
  | null : Denotes "null".toList .null
  | true : Denotes "true".toList (.bool true)
  | false : Denotes "false".toList (.bool false)
  | string {text : Text} {s : String} : IsString text s → Denotes text (.string s)
  | number {c : Char} {cs : Text} {n : Number} : IsNumeral (c :: cs) → startsNumber c →
      Number.ofText? (c :: cs) = some n → Denotes (c :: cs) (.number n)
  | array {items : List Item} {text : Text} : (∀ item ∈ items, IsBare item.label item.name) →
      (∀ item ∈ items, Denotes item.text item.value) → Enclosed ']' (items.map Item.source) text →
      Denotes ('[' :: text) (.array (items.map Item.value))
  | map {items : List Item} {text : Text} : (∀ item ∈ items, IsKey item.label item.name) →
      (∀ item ∈ items, Denotes item.text item.value) →
      Enclosed '\x7d' (items.map Item.source) text →
      Denotes ('\x7b' :: text) (.map (Entries.ofList (Item.entries 0 items)))
  | reference {name text : Text} {segments : List PathSegment} : IsIdentifier name →
      IsPath text segments →
      Denotes ('$' :: name ++ text) (.reference (.key (String.ofList name) :: segments))
  | call {name : Text} {items : List Item} {text : Text} : IsIdentifier name →
      String.ofList name ∉ reserved → (∀ item ∈ items, IsOptionalName item.label item.name) →
      (∀ item ∈ items, Denotes item.text item.value) → Enclosed ')' (items.map Item.source) text →
      Denotes (name ++ '(' :: text) (.call (String.ofList name) (Entries.ofList (Item.entries 0 items)))

/-- An attribute. An id goes under the name `id`, a class under the name `class`. -/
inductive IsAttribute : Text → Attribute → Prop
  | id {name : Text} : IsIdentifier name →
      IsAttribute ('#' :: name) ⟨"id", .id, .string (String.ofList name)⟩
  | classed {name : Text} : IsIdentifier name →
      IsAttribute ('.' :: name) ⟨"class", .classed, .string (String.ofList name)⟩
  | plain {label text : Text} {name : String} {v : Value} : IsName label (some name) →
      Denotes text v → IsAttribute (label ++ text) ⟨name, .plain, v⟩

/-- Attributes, each behind any number of blanks. -/
inductive AreAttributes : Text → List Attribute → Prop
  | nil : AreAttributes [] []
  | cons {blanks text rest : Text} {a : Attribute} {list : List Attribute} : Blanks blanks →
      IsAttribute text a → AreAttributes rest list →
      AreAttributes (blanks ++ text ++ rest) (a :: list)

/-- The value without a name behind the name of a tag, which may be missing. -/
inductive IsPrimary : Text → List Attribute → Prop
  | nil : IsPrimary [] []
  | value {text : Text} {v : Value} : Denotes text v → IsPrimary text [⟨"primary", .plain, v⟩]

/-- A whole body. -/
inductive Sentence : Text → Descriptor → Prop
  | closing {before between name after : Text} : Blanks before → Blanks between →
      IsIdentifier name → Blanks after →
      Sentence (before ++ '/' :: between ++ name ++ after) (.closing (String.ofList name))
  | opening {before name between first others after : Text} {fs os : List Attribute} :
      Blanks before → IsIdentifier name → Blanks between → IsPrimary first fs →
      AreAttributes others os → Blanks after →
      Sentence (before ++ name ++ between ++ first ++ others ++ after)
        (.opening (String.ofList name) (fs ++ os))
  | selfClosing {before name between first others slash after : Text} {fs os : List Attribute} :
      Blanks before → IsIdentifier name → Blanks between → IsPrimary first fs →
      AreAttributes others os → Blanks slash → Blanks after →
      Sentence (before ++ name ++ between ++ first ++ others ++ slash ++ '/' :: after)
        (.selfClosing (String.ofList name) (fs ++ os))
  | annotating {text after : Text} {list : List Attribute} : list ≠ [] → AreAttributes text list →
      Blanks after → Sentence (text ++ after) (.annotating list)

end TaggedText.Grammar
