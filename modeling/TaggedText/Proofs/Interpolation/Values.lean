import TaggedText.Interpolation

/-!
# What interpolation does to a value

Interpolating a value comes to the same as copying it with every string in it replaced. A string is
in a value if arrays and the values of maps lead to it; keys of maps and the arguments of calls are
not looked into. The paths that led nowhere are those of the strings, from left to right.

A copy is made only where something changes, and each level decides so by the levels below. The
answer is a copy exactly if some string in the value is replaced by another.
-/
namespace TaggedText

namespace Value

mutual

/-- The value with the strings in it changed. -/
def mapStrings (f : String → String) : Value → Value
  | string s => string (f s)
  | array items => array (mapStringsItems f items)
  | map entries => map (mapStringsEntries f entries)
  | v => v

def mapStringsItems (f : String → String) : List Value → List Value
  | [] => []
  | item :: items => item.mapStrings f :: mapStringsItems f items

def mapStringsEntries (f : String → String) : List (String × Value) → List (String × Value)
  | [] => []
  | (key, value) :: rest => (key, value.mapStrings f) :: mapStringsEntries f rest

end

mutual

/-- The strings in a value, from left to right. -/
def strings : Value → List String
  | string s => [s]
  | array items => stringsItems items
  | map entries => stringsEntries entries
  | _ => []

def stringsItems : List Value → List String
  | [] => []
  | item :: items => item.strings ++ stringsItems items

def stringsEntries : List (String × Value) → List String
  | [] => []
  | (_, value) :: rest => value.strings ++ stringsEntries rest

end

end Value

namespace Interpolation

/-- What takes the place of a string. -/
def replacement (bindings : Option Bindings) (s : String) : String :=
  String.ofList (text bindings s.toList).1

/-- The paths in a string that lead nowhere. -/
def missing (bindings : Option Bindings) (s : String) : List String :=
  (text bindings s.toList).2

/-- The answer about something with the given strings in it, which is `new` once they are
replaced. -/
structure Answers {α : Type} (bindings : Option Bindings) (strings : List String) (old new : α)
    (answer : Option α × List String) : Prop where
  getD_eq : answer.1.getD old = new
  isSome_iff : answer.1.isSome ↔ ∃ s ∈ strings, replacement bindings s ≠ s
  missing_eq : answer.2 = strings.flatMap (missing bindings)

variable {α β γ : Type} {bindings : Option Bindings}

/-- Two things in one, copied together if either of them is. -/
def joinCopies (f : α → β → γ) (a : α) (b : β) : Option α → Option β → Option γ
  | none, none => none
  | first, second => some (f (first.getD a) (second.getD b))

theorem getD_joinCopies (f : α → β → γ) (a : α) (b : β) (first : Option α) (second : Option β) :
    (joinCopies f a b first second).getD (f a b) = f (first.getD a) (second.getD b) := by
  cases first <;> cases second <;> rfl

theorem isSome_joinCopies (f : α → β → γ) (a : α) (b : β) (first : Option α)
    (second : Option β) :
    (joinCopies f a b first second).isSome ↔ first.isSome ∨ second.isSome := by
  cases first <;> cases second <;> simp [joinCopies]

theorem items_cons (bindings : Option Bindings) (x : Value) (xs : List Value) :
    items bindings (x :: xs) =
      (joinCopies List.cons x xs (value bindings x).1 (items bindings xs).1,
        (value bindings x).2 ++ (items bindings xs).2) := by
  rw [items]
  cases (value bindings x).1 <;> cases (items bindings xs).1 <;> rfl

theorem entries_cons (bindings : Option Bindings) (key : String) (x : Value)
    (es : List (String × Value)) :
    entries bindings ((key, x) :: es) =
      (joinCopies (fun x es => (key, x) :: es) x es (value bindings x).1 (entries bindings es).1,
        (value bindings x).2 ++ (entries bindings es).2) := by
  rw [entries]
  cases (value bindings x).1 <;> cases (entries bindings es).1 <;> rfl

theorem Answers.unchanged (bindings : Option Bindings) (a : α) :
    Answers bindings [] a a (none, []) where
  getD_eq := rfl
  isSome_iff := by simp
  missing_eq := rfl

/-- What encloses a thing is copied if the thing is. -/
theorem Answers.enclose {strings : List String} {old new : α} {answer : Option α × List String}
    (h : Answers bindings strings old new answer) (f : α → β) :
    Answers bindings strings (f old) (f new) (answer.1.map f, answer.2) where
  getD_eq := by
    rw [← h.getD_eq]
    exact Option.getD_map f old answer.1
  isSome_iff := by
    rw [Option.isSome_map]
    exact h.isSome_iff
  missing_eq := h.missing_eq

theorem Answers.join {strings others : List String} {a a' : α} {b b' : β}
    {answer : Option α × List String} {answer' : Option β × List String}
    (h : Answers bindings strings a a' answer) (h' : Answers bindings others b b' answer')
    (f : α → β → γ) :
    Answers bindings (strings ++ others) (f a b) (f a' b')
      (joinCopies f a b answer.1 answer'.1, answer.2 ++ answer'.2) where
  getD_eq := by rw [getD_joinCopies, h.getD_eq, h'.getD_eq]
  isSome_iff := by
    rw [isSome_joinCopies, h.isSome_iff, h'.isSome_iff]
    simp only [List.mem_append, or_and_right, exists_or]
  missing_eq := by rw [h.missing_eq, h'.missing_eq, List.flatMap_append]

theorem answers_string (bindings : Option Bindings) (s : String) :
    Answers bindings [s] s (replacement bindings s) (string bindings s) := by
  have hmissing : (string bindings s).2 = [s].flatMap (missing bindings) :=
    (List.flatMap_singleton ..).symm
  by_cases h : replacement bindings s = s
  · have hnone : (string bindings s).1 = none := if_pos h
    exact ⟨by rw [hnone, h]; rfl, by simp [hnone, h], hmissing⟩
  · have hsome : (string bindings s).1 = some (replacement bindings s) := if_neg h
    exact ⟨by rw [hsome]; rfl, by simp [hsome, h], hmissing⟩

mutual

theorem answers_value (bindings : Option Bindings) : ∀ v : Value,
    Answers bindings v.strings v (v.mapStrings (replacement bindings)) (value bindings v)
  | .string s => by
      rw [value]
      exact (answers_string bindings s).enclose Value.string
  | .array xs => by
      rw [value]
      exact (answers_items bindings xs).enclose Value.array
  | .map es => by
      rw [value]
      exact (answers_entries bindings es).enclose Value.map
  | .null => .unchanged bindings _
  | .bool _ => .unchanged bindings _
  | .number _ => .unchanged bindings _
  | .reference _ => .unchanged bindings _
  | .call _ _ => .unchanged bindings _
  | .custom _ _ => .unchanged bindings _

theorem answers_items (bindings : Option Bindings) : ∀ xs : List Value,
    Answers bindings (Value.stringsItems xs) xs (Value.mapStringsItems (replacement bindings) xs)
      (items bindings xs)
  | [] => .unchanged bindings _
  | x :: xs => by
      rw [items_cons]
      exact (answers_value bindings x).join (answers_items bindings xs) List.cons

theorem answers_entries (bindings : Option Bindings) : ∀ es : List (String × Value),
    Answers bindings (Value.stringsEntries es) es
      (Value.mapStringsEntries (replacement bindings) es) (entries bindings es)
  | [] => .unchanged bindings _
  | (key, x) :: es => by
      rw [entries_cons]
      exact (answers_value bindings x).join (answers_entries bindings es) fun x es => (key, x) :: es

end

/-- A value is interpolated as if it were copied with every string in it replaced. It is copied
exactly if some string is replaced by another, and comes back as it is if not. -/
theorem value_eq_mapStrings (bindings : Option Bindings) (v : Value) :
    value bindings v =
        (if ∃ s ∈ v.strings, replacement bindings s ≠ s then
            some (v.mapStrings (replacement bindings))
          else none,
          v.strings.flatMap (missing bindings)) ∧
      apply bindings v = v.mapStrings (replacement bindings) := by
  obtain ⟨hgetD, hisSome, hmissing⟩ := answers_value bindings v
  refine ⟨Prod.ext ?_ hmissing, hgetD⟩
  cases hcopy : (value bindings v).1 with
  | none =>
      rw [hcopy] at hisSome
      exact (if_neg fun h => Bool.false_ne_true (hisSome.mpr h)).symm
  | some copy =>
      rw [hcopy] at hgetD hisSome
      rw [if_pos (hisSome.mp rfl), ← hgetD, Option.getD_some]

/-- A key and an argument of a call are not in the value. -/
example : (Value.map [("k", .array [.string "a", .null, .string "b"]),
    ("f", .call "g" [("0", .string "c")])]).strings = ["a", "b"] :=
  rfl

end Interpolation

end TaggedText
