import TaggedText.Proofs.Outline

/-!
# Balanced tags

The opening and closing directives of a document are brackets that bear the names of their tags. A
word of brackets is balanced if it is empty, two balanced words one after the other, or a balanced
word between the brackets of one name.

A stack of names decides this: every closing bracket has the name on top of the stack, and nothing
is left on it at the end. For the tokens of a document that is the same as that no closing directive
is stray and no tag is left open.
-/
namespace TaggedText

/-- A directive that opens or closes a tag. -/
inductive Bracket where
  | opening (name : String)
  | closing (name : String)
  deriving DecidableEq, Repr

/-- The words of brackets in which every bracket has its partner. -/
inductive Balanced : List Bracket → Prop
  | nil : Balanced []
  | append {u v : List Bracket} : Balanced u → Balanced v → Balanced (u ++ v)
  | nest {u : List Bracket} (name : String) : Balanced u →
      Balanced (.opening name :: (u ++ [.closing name]))

/-- The open names after one more bracket, unless it closes what is not innermost. -/
def Bracket.step? (opened : List String) : Bracket → Option (List String)
  | opening name => some (name :: opened)
  | closing name => if opened.head? = some name then some opened.tail else none

variable {u v w : List Bracket} {opened : List String} {name : String}

namespace Balanced

/-- A balanced word leaves the names that were open before it. -/
theorem foldlM_eq (h : Balanced w) (opened : List String) :
    w.foldlM Bracket.step? opened = some opened := by
  induction h generalizing opened with
  | nil => rfl
  | append _ _ ihu ihv => rw [List.foldlM_append, ihu, Option.bind_eq_bind, Option.bind_some, ihv]
  | nest name _ ih =>
      rw [List.foldlM_cons, Bracket.step?, Option.bind_eq_bind, Option.bind_some,
        List.foldlM_append, ih, Option.bind_eq_bind, Option.bind_some, List.foldlM_cons,
        Bracket.step?, List.head?_cons, if_pos rfl]
      rfl

theorem pair (name : String) : Balanced [.opening name, .closing name] :=
  nest name nil

/-- A pair of brackets may be put anywhere into a balanced word. -/
theorem insert (h : Balanced w) (name : String) (heq : w = u ++ v) :
    Balanced (u ++ [.opening name, .closing name] ++ v) := by
  induction h generalizing u v with
  | nil =>
      obtain ⟨rfl, rfl⟩ := List.append_eq_nil_iff.mp heq.symm
      exact pair name
  | append hleft hright ihleft ihright =>
      rcases List.append_eq_append_iff.mp heq with ⟨between, rfl, hv⟩ | ⟨between, hu, rfl⟩
      · have hbalanced := hleft.append (ihright hv)
        rwa [← List.append_assoc, ← List.append_assoc] at hbalanced
      · have hbalanced := (ihleft hu).append hright
        rwa [List.append_assoc] at hbalanced
  | nest other hinner ih =>
      cases u with
      | nil =>
          rw [List.nil_append] at heq
          rw [← heq]
          exact (pair name).append (nest other hinner)
      | cons first u =>
          rw [List.cons_append] at heq
          obtain ⟨rfl, htail⟩ := List.cons.inj heq
          rcases List.eq_nil_or_concat v with rfl | ⟨v, last, rfl⟩
          · rw [List.append_nil] at htail ⊢
            rw [← htail]
            exact (nest other hinner).append (pair name)
          · rw [List.concat_eq_append, ← List.append_assoc] at htail
            obtain ⟨hsplit, hlast⟩ := List.append_inj' htail rfl
            obtain rfl := List.singleton_inj.mp hlast
            have hbalanced := nest other (ih hsplit)
            rwa [List.append_assoc, ← List.concat_eq_append] at hbalanced

/-- A word that closes all that is open, and nothing else, is balanced behind what opened it. -/
theorem of_foldlM_eq (h : w.foldlM Bracket.step? opened = some []) :
    Balanced (opened.reverse.map .opening ++ w) := by
  induction w generalizing opened with
  | nil =>
      obtain rfl := Option.some.inj h
      exact nil
  | cons bracket w ih =>
      rw [List.foldlM_cons] at h
      obtain ⟨next, hnext, hrest⟩ := Option.bind_eq_some_iff.mp h
      have hbalanced := ih hrest
      cases bracket with
      | opening name =>
          obtain rfl := Option.some.inj hnext
          rwa [List.reverse_cons, List.map_append, List.append_assoc] at hbalanced
      | closing name =>
          rw [Bracket.step?, Option.ite_none_right_eq_some] at hnext
          obtain ⟨hhead, htail⟩ := hnext
          obtain ⟨rest, rfl⟩ := List.head?_eq_some_iff.mp hhead
          obtain rfl := Option.some.inj htail
          have hinserted := hbalanced.insert name rfl
          simpa using hinserted

end Balanced

/-- A stack decides whether a word is balanced. -/
theorem balanced_iff_foldlM_eq : Balanced w ↔ w.foldlM Bracket.step? [] = some [] :=
  ⟨fun h => h.foldlM_eq [], Balanced.of_foldlM_eq⟩

/-- The bracket that a token is. -/
def Lexeme.bracket? : Lexeme → Option Bracket
  | .directive _ (.ok (.opening name _)) => some (.opening name)
  | .directive _ (.ok (.closing name)) => some (.closing name)
  | _ => none

namespace Outline

/-- The brackets among the tokens. -/
def brackets (lexemes : List Lexeme) : List Bracket :=
  lexemes.filterMap Lexeme.bracket?

/-- Whether a token is a closing directive that closes nothing where the given tags are open. -/
def closesNothing (opened : List (Nat × String)) : Lexeme → Bool
  | .directive _ (.ok (.closing name)) => opened.head?.map Prod.snd != some name
  | _ => false

/-- Whether the token at a position is a closing directive whose name is not that of the innermost
tag that is open before it. -/
def isStray (lexemes : List Lexeme) (k : Nat) : Bool :=
  lexemes[k]?.any (closesNothing (openTags (lexemes.take k)))

variable {lexemes : List Lexeme} {lexeme : Lexeme}

theorem isStray_append {k : Nat} (hk : k < lexemes.length) :
    isStray (lexemes ++ [lexeme]) k = isStray lexemes k := by
  rw [isStray, List.getElem?_append_left hk, List.take_append_of_le_length (Nat.le_of_lt hk),
    isStray]

theorem isStray_length :
    isStray (lexemes ++ [lexeme]) lexemes.length = closesNothing (openTags lexemes) lexeme := by
  rw [isStray, List.getElem?_concat_length, List.take_left, Option.any_some]

/-- The stack takes a token that is no stray closing, and holds the names of the open tags then. -/
theorem foldlM_bracket? (tags : List (Nat × String)) (k : Nat) :
    lexeme.bracket?.toList.foldlM Bracket.step? (tags.map Prod.snd) = some opened ↔
      closesNothing tags lexeme = false ∧ (openStep tags k lexeme).map Prod.snd = opened := by
  unfold openStep
  split
  next => simp [Lexeme.bracket?, Bracket.step?, closesNothing]
  next directive name =>
    by_cases hname : tags.head?.map Prod.snd = some name
    · simp [Lexeme.bracket?, Bracket.step?, closesNothing, hname]
    · simp [Lexeme.bracket?, Bracket.step?, closesNothing, hname]
  next hopening hclosing =>
    have hbracket : lexeme.bracket? = none := by
      unfold Lexeme.bracket?
      split
      next => exact absurd rfl (hopening _ _ _)
      next => exact absurd rfl (hclosing _ _)
      next => rfl
    have hcloses : closesNothing tags lexeme = false := by
      unfold closesNothing
      split
      next => exact absurd rfl (hclosing _ _)
      next => rfl
    simp [hbracket, hcloses]

/-- The stack takes all tokens if none is a stray closing, and holds the names of the tags that are
open at the end. -/
theorem foldlM_brackets : (brackets lexemes).foldlM Bracket.step? [] = some opened ↔
    (∀ k < lexemes.length, isStray lexemes k = false) ∧
      (openTags lexemes).map Prod.snd = opened := by
  induction lexemes using List.reverseRecOn generalizing opened with
  | nil => simp [brackets, openTags]
  | append_singleton lexemes lexeme ih =>
      have hbrackets : brackets (lexemes ++ [lexeme]) =
          brackets lexemes ++ lexeme.bracket?.toList := by
        rw [brackets, List.filterMap_append, brackets]
        cases hbracket : lexeme.bracket? <;> simp [hbracket]
      have hstrays : (∀ k < (lexemes ++ [lexeme]).length, isStray (lexemes ++ [lexeme]) k = false) ↔
          (∀ k < lexemes.length, isStray lexemes k = false) ∧
            closesNothing (openTags lexemes) lexeme = false := by
        rw [List.length_append, List.length_singleton, Nat.forall_lt_succ_right, isStray_length]
        exact and_congr_left' (forall₂_congr fun k hk => by rw [isStray_append hk])
      rw [hbrackets, List.foldlM_append, hstrays, openTags_append, Option.bind_eq_bind,
        Option.bind_eq_some_iff, and_assoc, ← foldlM_bracket?]
      simp only [ih, and_assoc, exists_and_left, exists_eq_left']

/-- The tags are balanced if no closing directive is stray and no tag is left open. -/
theorem balanced_brackets_iff : Balanced (brackets lexemes) ↔
    (∀ k < lexemes.length, isStray lexemes k = false) ∧ openTags lexemes = [] := by
  rw [balanced_iff_foldlM_eq, foldlM_brackets, List.map_eq_nil_iff]

end Outline

end TaggedText
