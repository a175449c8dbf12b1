import TaggedText.Interpolation
import TaggedText.Proofs.Placeholder

/-!
# What interpolation does to a text

A text falls into literals and placeholders, one after another, whatever the bindings. Double braces
are held back by a backslash before them, and so is the pair that overlaps such braces. Wherever
double braces begin in a literal they are held back or no placeholder stands there, so none is
missed; and no placeholder is held back.

With bindings, the value at the end of its path takes the place of each placeholder. Where the path
leads nowhere the placeholder stays and its path is reported. Paths are walked with the exact
indices: as long as no array has room for the greatest index, cutting larger ones down to it
changes nothing.
-/
namespace TaggedText

/-- From a value along the steps of a path to another: by key through maps, by index through
arrays. -/
inductive Value.Leads : Value → List PathSegment → Value → Prop
  | here {v : Value} : Leads v [] v
  | key {entries : Entries Value} {name : String} {steps : List PathSegment} {v w : Value} :
      entries.get? name = some v → Leads v steps w → Leads (.map entries) (.key name :: steps) w
  | index {items : List Value} {n : Nat} {steps : List PathSegment} {v w : Value} :
      items[n]? = some v → Leads v steps w → Leads (.array items) (.index n :: steps) w

/-- From a name among bindings along a path to a value. -/
inductive Bindings.Leads (bindings : Bindings) : List PathSegment → Value → Prop
  | name {name : String} {steps : List PathSegment} {v w : Value} :
      bindings.get? name = some v → v.Leads steps w → Leads bindings (.key name :: steps) w

/-- No array inside has an item at the greatest index or past it. -/
def Value.Indexable (v : Value) : Prop :=
  ∀ steps items, v.Leads steps (.array items) → items.length < indexLimit - 1

/-- No array that a path leads to has an item at the greatest index or past it. -/
def Bindings.Indexable (bindings : Bindings) : Prop :=
  ∀ steps items, bindings.Leads steps (.array items) → items.length < indexLimit - 1

namespace Value

variable {v w : Value} {step : PathSegment} {steps : List PathSegment}

/-- One step, and then the rest of the path. -/
theorem leads_cons_iff : v.Leads (step :: steps) w ↔
    ∃ next, v.step? step = some next ∧ next.Leads steps w := by
  constructor
  · intro h
    cases h with
    | key hnext hrest => exact ⟨_, hnext, hrest⟩
    | index hnext hrest => exact ⟨_, hnext, hrest⟩
  · rintro ⟨next, hnext, hrest⟩
    unfold step? at hnext
    split at hnext
    · exact .key hnext hrest
    · exact .index hnext hrest
    · cases hnext

theorem leads_iff_foldlM : v.Leads steps w ↔ steps.foldlM step? v = some w := by
  induction steps generalizing v with
  | nil =>
      rw [List.foldlM_nil]
      constructor
      · intro h
        cases h
        rfl
      · intro h
        obtain rfl := Option.some.inj h
        exact .here
  | cons step steps ih =>
      rw [leads_cons_iff, List.foldlM_cons, Option.bind_eq_bind, Option.bind_eq_some_iff]
      simp only [ih]

theorem Indexable.next {next : Value} (h : v.Indexable) (hnext : v.step? step = some next) :
    next.Indexable :=
  fun steps items hleads => h (step :: steps) items (leads_cons_iff.mpr ⟨next, hnext, hleads⟩)

/-- Past the end of an array one index is as good as another. -/
theorem Indexable.step?_bounded (h : v.Indexable) (step : PathSegment) :
    v.step? step.bounded = v.step? step := by
  match v, step with
  | .array items, .index n =>
      have hshort : items.length < indexLimit - 1 := h [] items .here
      rw [PathSegment.bounded]
      split
      next => rfl
      next hlarge =>
        have hend : items[indexLimit - 1]? = none := List.getElem?_eq_none (Nat.le_of_lt hshort)
        have hpast : items[n]? = none := List.getElem?_eq_none (by omega)
        rw [step?, step?, hend, hpast]
  | _, .key name => rfl
  | .null, .index n => rfl
  | .bool _, .index n => rfl
  | .number _, .index n => rfl
  | .string _, .index n => rfl
  | .map _, .index n => rfl
  | .reference _, .index n => rfl
  | .call _ _, .index n => rfl
  | .custom _ _, .index n => rfl

theorem Indexable.foldlM_bounded (h : v.Indexable) (steps : List PathSegment) :
    (steps.map PathSegment.bounded).foldlM step? v = steps.foldlM step? v := by
  induction steps generalizing v with
  | nil => rfl
  | cons step steps ih =>
      rw [List.map_cons, List.foldlM_cons, List.foldlM_cons, h.step?_bounded]
      cases hnext : v.step? step with
      | none => rfl
      | some next => exact ih (h.next hnext)

end Value

namespace Bindings

variable {bindings : Bindings} {steps : List PathSegment} {v : Value}

theorem leads_iff_lookup? : bindings.Leads steps v ↔ bindings.lookup? steps = some v := by
  constructor
  · intro h
    cases h with
    | name hfirst hrest =>
        rw [lookup?, hfirst, Option.bind_some]
        exact Value.leads_iff_foldlM.mp hrest
  · intro h
    unfold lookup? at h
    split at h
    next first rest =>
      obtain ⟨w, hfirst, hrest⟩ := Option.bind_eq_some_iff.mp h
      exact .name hfirst (Value.leads_iff_foldlM.mpr hrest)
    next => cases h

theorem Indexable.lookup?_bounded (h : bindings.Indexable) (steps : List PathSegment) :
    bindings.lookup? (steps.map PathSegment.bounded) = bindings.lookup? steps := by
  match steps with
  | [] => rfl
  | .index n :: _ => rfl
  | .key name :: steps =>
      rw [List.map_cons, PathSegment.bounded, lookup?, lookup?]
      cases hfirst : bindings.get? name with
      | none => rfl
      | some v =>
          have hv : v.Indexable := fun steps items hleads =>
            h (.key name :: steps) items (.name hfirst hleads)
          exact hv.foldlM_bounded steps

end Bindings

namespace Interpolation

open Mention (opening)

/-- Braces that come next are kept as they are: a backslash stands right before them, or right
before the brace before them. -/
def HeldBack (before : Text) : Prop :=
  ['\\'] <:+ before ∨ ['\\', '\x7b'] <:+ before

/-- Where double braces begin among the first `n` characters of a text, they are held back or begin
no placeholder. -/
def Bare (before text : Text) (n : Nat) : Prop :=
  ∀ p q, text = p ++ opening ++ q → p.length < n →
    HeldBack (before ++ p) ∨ ∀ m : Mention, m.Written → ¬ m.source <+: opening ++ q

/-- The text behind `before` is a literal, and then placeholders that each have a literal behind
them. -/
inductive Divided : Text → Text → Text → List (Mention × Text) → Prop
  | last {before literal : Text} : Bare before literal literal.length →
      Divided before literal literal []
  | mention {before literal rest next : Text} {m : Mention} {parts : List (Mention × Text)} :
      Bare before (literal ++ m.source ++ rest) literal.length → m.Written →
      ¬ HeldBack (before ++ literal) → Divided (before ++ literal ++ m.source) rest next parts →
      Divided before (literal ++ m.source ++ rest) literal ((m, next) :: parts)

/-- The placeholders with the literals behind them after the bindings were looked at, and the paths
that led nowhere. -/
inductive Filled (bindings : Bindings) : List (Mention × Text) → Text → List String → Prop
  | nil : Filled bindings [] [] []
  | found {m : Mention} {literal text : Text} {parts : List (Mention × Text)}
      {paths : List String} {v : Value} : bindings.Leads m.steps v →
      Filled bindings parts text paths →
      Filled bindings ((m, literal) :: parts) (v.toText ++ literal ++ text) paths
  | lost {m : Mention} {literal text : Text} {parts : List (Mention × Text)}
      {paths : List String} : (∀ v, ¬ bindings.Leads m.steps v) →
      Filled bindings parts text paths →
      Filled bindings ((m, literal) :: parts) (m.source ++ literal ++ text)
        (String.ofList m.path :: paths)

variable {before text literal : Text} {c : Char} {parts : List (Mention × Text)}

theorem Divided.text_eq (h : Divided before text literal parts) :
    text = literal ++ parts.flatMap fun part => part.1.source ++ part.2 := by
  induction h with
  | last _ => simp
  | mention _ _ _ _ ih =>
      rw [List.flatMap_cons, List.append_assoc, List.append_assoc, ← ih]

theorem Bare.cons {n : Nat} (h : Bare (before ++ [c]) text n)
    (hc : ∀ q, c :: text = opening ++ q →
      HeldBack before ∨ ∀ m : Mention, m.Written → ¬ m.source <+: opening ++ q) :
    Bare before (c :: text) (n + 1) := by
  intro p q heq hlt
  match p with
  | [] =>
      rw [List.append_nil]
      exact hc q heq
  | d :: p =>
      obtain ⟨rfl, htext⟩ := List.cons.inj heq
      rw [List.append_cons]
      exact h p q htext (Nat.lt_of_succ_lt_succ hlt)

/-- A character that begins no placeholder belongs to the literal that follows it. -/
theorem Divided.cons (h : Divided (before ++ [c]) text literal parts)
    (hc : ∀ q, c :: text = opening ++ q →
      HeldBack before ∨ ∀ m : Mention, m.Written → ¬ m.source <+: opening ++ q) :
    Divided before (c :: text) (c :: literal) parts := by
  cases h with
  | last hbare => exact .last (hbare.cons hc)
  | mention hbare hwritten hfree hrest =>
      rw [List.append_assoc, List.singleton_append] at hfree
      rw [List.append_assoc before, List.singleton_append] at hrest
      exact .mention (hbare.cons hc) hwritten hfree hrest

theorem backslash_suffix_iff : ['\\'] <:+ before ++ [c] ↔ c = '\\' := by
  rw [List.suffix_concat_iff]
  constructor
  · rintro (hnil | ⟨t, ht, _⟩)
    · cases hnil
    · simpa using congrArg List.getLast? ht.symm
  · rintro rfl
    exact .inr ⟨[], rfl, List.nil_suffix⟩

theorem pair_suffix_iff : ['\\', '\x7b'] <:+ before ++ [c] ↔ c = '\x7b' ∧ ['\\'] <:+ before := by
  rw [List.suffix_concat_iff]
  constructor
  · rintro (hnil | ⟨t, ht, hsuffix⟩)
    · cases hnil
    · have hlast : c = '\x7b' := by simpa using congrArg List.getLast? ht.symm
      have hfront : t = ['\\'] := by simpa using congrArg List.dropLast ht.symm
      exact ⟨hlast, hfront ▸ hsuffix⟩
  · rintro ⟨rfl, hsuffix⟩
    exact .inr ⟨['\\'], rfl, hsuffix⟩

/-- What the division into pieces knows of the text that it has passed. -/
structure Passed (before : Text) (escaped : Bool) (text : Text) : Prop where
  escaped_iff : escaped = true ↔ ['\\'] <:+ before
  /-- A pair of braces that is held back is passed as a whole. -/
  whole : ['\\', '\x7b'] <:+ before → text.head? ≠ some '\x7b'

variable {escaped : Bool}

theorem Passed.start (text : Text) : Passed [] false text :=
  ⟨by simp, fun h => by simp at h⟩

theorem Passed.char (h : Passed before escaped (c :: text))
    (hpair : c = '\x7b' → escaped = true → text.head? ≠ some '\x7b') :
    Passed (before ++ [c]) (c == '\\') text where
  escaped_iff := by rw [backslash_suffix_iff, beq_iff_eq]
  whole := by
    rw [pair_suffix_iff, ← h.escaped_iff]
    exact fun hc => hpair hc.1 hc.2

/-- Behind a brace that is not right behind a backslash nothing is held back. -/
theorem Passed.brace (hc : c ≠ '\\') (hbefore : ¬ ['\\'] <:+ before) :
    Passed (before ++ [c]) false text where
  escaped_iff := by
    rw [backslash_suffix_iff]
    exact ⟨fun h => absurd h Bool.false_ne_true, fun h => absurd h hc⟩
  whole := by
    rw [pair_suffix_iff]
    exact fun h => absurd h.2 hbefore

theorem Passed.not_heldBack (h : Passed before false ('\x7b' :: text)) : ¬ HeldBack before := by
  rintro (hbackslash | hpair)
  · exact Bool.false_ne_true (h.escaped_iff.mpr hbackslash)
  · exact h.whole hpair rfl

/-- The pieces that a literal and the placeholders behind it make. -/
def piecesOf (literal : Text) (parts : List (Mention × Text)) : List Piece :=
  literal.map .char ++
    parts.flatMap fun part => .hole part.1.placeholder :: part.2.map .char

theorem exists_division (h : Passed before escaped text) :
    ∃ literal parts, Divided before text literal parts ∧
      Piece.split escaped text = piecesOf literal parts := by
  fun_induction Piece.split escaped text generalizing before with
  | case1 escaped =>
      exact ⟨[], [], .last fun _ _ _ hlt => absurd hlt (Nat.not_lt_zero _), rfl⟩
  | case2 cs ih =>
      -- The pair behind a backslash, and the one that overlaps it, are both held back.
      have hbackslash : ['\\'] <:+ before := h.escaped_iff.mp rfl
      have hpassed : Passed (before ++ ['\x7b'] ++ ['\x7b']) false cs :=
        .brace (by decide) fun hsuffix => absurd (backslash_suffix_iff.mp hsuffix) (by decide)
      obtain ⟨literal, parts, hdivided, hpieces⟩ := ih hpassed
      have hsecond := hdivided.cons fun _ _ => .inl (.inr (pair_suffix_iff.mpr ⟨rfl, hbackslash⟩))
      have hfirst := hsecond.cons fun _ _ => .inl (.inl hbackslash)
      exact ⟨_, parts, hfirst, by rw [hpieces]; rfl⟩
  | case3 escaped cs hescaped p rest hbraces ih =>
      obtain rfl : escaped = false := Bool.not_eq_true _ |>.mp hescaped
      obtain ⟨m, hwritten, rfl, htext⟩ := Placeholder.written_of_behindBraces? hbraces
      obtain ⟨most, hmost⟩ := hwritten.exists_last
      have hpassed : Passed (before ++ m.source) false rest := by
        rw [hmost, ← List.append_assoc, ← List.append_assoc]
        exact .brace (by decide) fun hsuffix => absurd (backslash_suffix_iff.mp hsuffix) (by decide)
      obtain ⟨literal, parts, hdivided, hpieces⟩ := ih hpassed
      refine ⟨[], (m, literal) :: parts, ?_, ?_⟩
      · have hfree : ¬ HeldBack (before ++ []) := (List.append_nil before).symm ▸ h.not_heldBack
        have hnil : Bare before ([] ++ m.source ++ rest) 0 := fun _ _ _ hlt =>
          absurd hlt (Nat.not_lt_zero _)
        have hall := Divided.mention hnil hwritten hfree (by rwa [List.append_nil])
        rw [List.nil_append, ← htext] at hall
        exact hall
      · rw [hpieces]
        rfl
  | case4 escaped cs hescaped hbraces ih =>
      obtain rfl : escaped = false := Bool.not_eq_true _ |>.mp hescaped
      have hbackslash : ¬ ['\\'] <:+ before := fun hsuffix =>
        Bool.false_ne_true (h.escaped_iff.mpr hsuffix)
      have hpassed : Passed (before ++ ['\x7b']) false ('\x7b' :: cs) :=
        .brace (by decide) hbackslash
      obtain ⟨literal, parts, hdivided, hpieces⟩ := ih hpassed
      refine ⟨_, parts, hdivided.cons fun q hq => .inr fun m hwritten hprefix => ?_, ?_⟩
      · obtain ⟨rest, hrest⟩ := hprefix
        have hread := Placeholder.behindBraces?_of_written hwritten (hq.trans hrest.symm)
        rw [hbraces] at hread
        cases hread
      · rw [hpieces]
        rfl
  | case5 escaped c cs hc ih =>
      have hpair : c = '\x7b' → escaped = true → cs.head? ≠ some '\x7b' := by
        intro hbrace _ hhead
        obtain ⟨tail, rfl⟩ := List.head?_eq_some_iff.mp hhead
        exact hc tail hbrace rfl
      obtain ⟨literal, parts, hdivided, hpieces⟩ := ih (h.char hpair)
      refine ⟨c :: literal, parts, hdivided.cons fun q hq => ?_, ?_⟩
      · obtain ⟨hbrace, hcs⟩ := List.cons.inj hq
        exact absurd hcs (hc q hbrace)
      · rw [hpieces]
        rfl

variable {bindings : Bindings}

theorem piecesOf_cons (literal : Text) (m : Mention) (next : Text) (parts : List (Mention × Text)) :
    piecesOf literal ((m, next) :: parts) =
      literal.map .char ++ .hole m.placeholder :: piecesOf next parts := by
  simp [piecesOf]

theorem flatMap_pieceText_char (literal : Text) :
    (literal.map Piece.char).flatMap (pieceText bindings) = literal := by
  rw [List.flatMap_map]
  exact List.flatMap_singleton' literal

theorem filterMap_unresolvedPath?_char (literal : Text) :
    (literal.map Piece.char).filterMap (unresolvedPath? bindings) = [] := by
  rw [List.filterMap_map]
  exact List.filterMap_eq_nil_iff.mpr fun _ _ => rfl

theorem exists_filled (h : bindings.Indexable) (literal : Text) (parts : List (Mention × Text)) :
    ∃ filled, Filled bindings parts filled
        ((piecesOf literal parts).filterMap (unresolvedPath? bindings)) ∧
      (piecesOf literal parts).flatMap (pieceText bindings) = literal ++ filled := by
  induction parts generalizing literal with
  | nil =>
      refine ⟨[], ?_, ?_⟩
      · rw [piecesOf, List.flatMap_nil, List.append_nil, filterMap_unresolvedPath?_char]
        exact .nil
      · rw [piecesOf, List.flatMap_nil, List.append_nil, flatMap_pieceText_char, List.append_nil]
  | cons part parts ih =>
      obtain ⟨m, next⟩ := part
      obtain ⟨filled, hfilled, htext⟩ := ih next
      rw [piecesOf_cons, List.filterMap_append, filterMap_unresolvedPath?_char, List.nil_append,
        List.flatMap_append, flatMap_pieceText_char, List.flatMap_cons, htext]
      have hlookup : bindings.lookup? m.placeholder.segments = bindings.lookup? m.steps :=
        h.lookup?_bounded m.steps
      cases hfound : bindings.lookup? m.steps with
      | some v =>
          have hpath : unresolvedPath? bindings (.hole m.placeholder) = none := by
            rw [unresolvedPath?, hlookup, hfound]
            rfl
          have htaken : pieceText bindings (.hole m.placeholder) = v.toText := by
            rw [pieceText, hlookup, hfound]
          rw [List.filterMap_cons_none hpath, htaken]
          refine ⟨v.toText ++ next ++ filled, ?_, by rw [List.append_assoc]⟩
          exact .found (Bindings.leads_iff_lookup?.mpr hfound) hfilled
      | none =>
          have hpath : unresolvedPath? bindings (.hole m.placeholder) =
              some (String.ofList m.path) := by
            rw [unresolvedPath?, hlookup, hfound]
            rfl
          have htaken : pieceText bindings (.hole m.placeholder) = m.source := by
            rw [pieceText, hlookup, hfound]
            rfl
          rw [List.filterMap_cons_some hpath, htaken]
          refine ⟨m.source ++ next ++ filled, ?_, by rw [List.append_assoc]⟩
          refine .lost (fun v hleads => ?_) hfilled
          rw [Bindings.leads_iff_lookup?, hfound] at hleads
          cases hleads

/-- Every text falls into literals and placeholders for good, and whatever the bindings, each
placeholder gives way to its value or stays. -/
theorem exists_divided_filled (source : Text) :
    ∃ literal parts, Divided [] source literal parts ∧
      source = literal ++ parts.flatMap (fun part => part.1.source ++ part.2) ∧
      ∀ bindings : Bindings, bindings ≠ [] → bindings.Indexable →
        ∃ filled paths, Filled bindings parts filled paths ∧
          Interpolation.text (some bindings) source = (literal ++ filled, paths) := by
  obtain ⟨literal, parts, hdivided, hpieces⟩ := exists_division (Passed.start source)
  refine ⟨literal, parts, hdivided, hdivided.text_eq, fun bindings hne hindexable => ?_⟩
  obtain ⟨filled, hfilled, htext⟩ := exists_filled hindexable literal parts
  refine ⟨filled, _, hfilled, ?_⟩
  have heffective : effective? (some bindings) = some bindings :=
    if_neg fun hempty => hne (List.isEmpty_iff.mp hempty)
  rw [Interpolation.text, heffective]
  simp only [Piece.ofText, hpieces, htext]

/-- Bindings with a map that holds an array. -/
def letters : Bindings :=
  [("x", .map [("y", .array [.string "p", .string "q"])])]

theorem indexable_letters : Bindings.Indexable letters := by
  intro steps items hleads
  cases hleads with
  | @name name steps v w hmap hrest =>
      obtain rfl : .map [("y", .array [.string "p", .string "q"])] = v := by
        by_contra hne
        simp [letters, Entries.get?, hne] at hmap
      cases hrest with
      | @key _ name steps v w harray hrest =>
          obtain rfl : .array [.string "p", .string "q"] = v := by
            by_contra hne
            simp [Entries.get?, hne] at harray
          cases hrest with
          | here => decide
          | @index _ n steps v w hitem hrest =>
              have hmem : v ∈ [Value.string "p", .string "q"] := List.mem_of_getElem? hitem
              simp only [List.mem_cons, List.not_mem_nil, or_false] at hmem
              rcases hmem with rfl | rfl <;> cases hrest

/-- Three braces behind a backslash are kept, one item is found, and another is past any limit. -/
theorem exists_divided_filled_letters :
    ∃ literal parts filled paths,
      Divided [] ("\\\x7b\x7b\x7b $x \x7d\x7d \x7b\x7b $x.y[1] \x7d\x7d " ++
        "\x7b\x7b $x.y[18446744073709551617] \x7d\x7d").toList literal parts ∧
      Filled letters parts filled paths ∧
      literal ++ filled = ("\\\x7b\x7b\x7b $x \x7d\x7d q " ++
        "\x7b\x7b $x.y[18446744073709551617] \x7d\x7d").toList ∧
      paths = ["x.y[18446744073709551617]"] := by
  obtain ⟨literal, parts, hdivided, _, hfill⟩ := exists_divided_filled
    ("\\\x7b\x7b\x7b $x \x7d\x7d \x7b\x7b $x.y[1] \x7d\x7d " ++
      "\x7b\x7b $x.y[18446744073709551617] \x7d\x7d").toList
  obtain ⟨filled, paths, hfilled, htext⟩ := hfill letters (by simp [letters]) indexable_letters
  have hresult : Interpolation.text (some letters)
      ("\\\x7b\x7b\x7b $x \x7d\x7d \x7b\x7b $x.y[1] \x7d\x7d " ++
        "\x7b\x7b $x.y[18446744073709551617] \x7d\x7d").toList =
      (("\\\x7b\x7b\x7b $x \x7d\x7d q " ++
        "\x7b\x7b $x.y[18446744073709551617] \x7d\x7d").toList,
        ["x.y[18446744073709551617]"]) := by
    decide +kernel
  rw [htext] at hresult
  obtain ⟨hliteral, hpaths⟩ := Prod.mk.inj hresult
  exact ⟨literal, parts, filled, paths, hdivided, hfilled, hliteral, hpaths⟩

variable {bindings? : Option Bindings}

theorem effective?_eq_none (h : bindings?.getD [] = []) : effective? bindings? = none := by
  cases bindings? with
  | none => rfl
  | some bindings =>
      obtain rfl : bindings = [] := h
      rfl

theorem string_eq_none (h : effective? bindings? = none) (s : String) :
    string bindings? s = (none, []) := by
  have htext : Interpolation.text bindings? s.toList = (s.toList, []) := by
    rw [Interpolation.text, h]
  rw [string, htext, String.ofList_toList, if_pos rfl]

mutual

theorem value_eq_none (h : effective? bindings? = none) :
    ∀ v : Value, value bindings? v = (none, [])
  | .string s => by rw [value, string_eq_none h, Option.map_none]
  | .array xs => by rw [value, items_eq_none h xs, Option.map_none]
  | .map es => by rw [value, entries_eq_none h es, Option.map_none]
  | .null => rfl
  | .bool _ => rfl
  | .number _ => rfl
  | .reference _ => rfl
  | .call _ _ => rfl
  | .custom _ _ => rfl

theorem items_eq_none (h : effective? bindings? = none) :
    ∀ xs : List Value, items bindings? xs = (none, [])
  | [] => rfl
  | x :: xs => by rw [items, value_eq_none h x, items_eq_none h xs, List.append_nil]

theorem entries_eq_none (h : effective? bindings? = none) :
    ∀ es : List (String × Value), entries bindings? es = (none, [])
  | [] => rfl
  | (_, x) :: es => by rw [entries, value_eq_none h x, entries_eq_none h es, List.append_nil]

end

/-- Where there is nothing to find, a value stays as it is. -/
theorem apply_eq_self (h : effective? bindings? = none) (v : Value) : apply bindings? v = v := by
  rw [apply, value_eq_none h, Option.getD_none]

end Interpolation

end TaggedText
