import Mathlib.Data.List.Induction
import Mathlib.Data.List.Nodup
import TaggedText.Node
import TaggedText.Token

/-!
# The outline of a list of tokens

What a list of tokens means as a document, said of the tokens alone. A tag is open from the token
that opens it up to a closing directive of its name that comes while it is innermost. A token makes
a node unless it is an empty text run, an annotation, or a closing directive that closes a tag; the
nodes are numbered in the order of their tokens, behind the root. A node goes below the innermost
tag that is open just before its token.

Positions are those in the list. What is said of a position depends on the tokens up to it, so it
stays as it is when tokens follow. A tag is open at the end or was closed by exactly one token.
-/
namespace TaggedText.Outline

/-- The open tags after one more token, which stands at position `k`. -/
def openStep (opened : List (Nat × String)) (k : Nat) : Lexeme → List (Nat × String)
  | .directive _ (.ok (.opening name _)) => (k, name) :: opened
  | .directive _ (.ok (.closing name)) =>
      if opened.head?.map Prod.snd = some name then opened.tail else opened
  | _ => opened

/-- The tags that are open at the end, innermost first, each with the position where it was
opened. -/
def openTags (lexemes : List Lexeme) : List (Nat × String) :=
  lexemes.zipIdx.foldl (fun opened item => openStep opened item.2 item.1) []

/-- Whether a token makes a node where the given tags are open. -/
def makesNode (opened : List (Nat × String)) : Lexeme → Bool
  | .text content => content != ""
  | .directive _ (.ok (.opening _ _)) => true
  | .directive _ (.ok (.selfClosing _ _)) => true
  | .directive _ (.ok (.closing name)) => opened.head?.map Prod.snd != some name
  | .directive _ (.ok (.annotating _)) => false
  | .directive _ (.error _) => true

/-- The positions of the tokens that make a node. -/
def makers (lexemes : List Lexeme) : List Nat :=
  (List.range lexemes.length).filter fun k =>
    lexemes[k]?.any (makesNode (openTags (lexemes.take k)))

/-- The node that the token at a position makes. -/
def nodeAt (lexemes : List Lexeme) (k : Nat) : NodeId :=
  (makers lexemes).idxOf k + 1

/-- The node of the innermost tag that is open before a position, or the root. -/
def ownerAt (lexemes : List Lexeme) (k : Nat) : NodeId :=
  match (openTags (lexemes.take k)).head? with
  | some tag => nodeAt lexemes tag.1
  | none => 0

/-- The nodes of the open tags, innermost first. -/
def openNodes (lexemes : List Lexeme) : List NodeId :=
  (openTags lexemes).map fun tag => nodeAt lexemes tag.1

/-- The directive at position `k` closes the tag that was opened at position `i`. -/
def ClosedBy (lexemes : List Lexeme) (i k : Nat) (directive : Directive) : Prop :=
  ∃ name, lexemes[k]? = some (.directive directive (.ok (.closing name))) ∧
    (openTags (lexemes.take k)).head? = some (i, name)

variable {lexemes : List Lexeme} {lexeme : Lexeme} {directive : Directive} {name : String}
variable {attributes : List Attribute} {i k : Nat}

theorem openTags_append (lexemes : List Lexeme) (lexeme : Lexeme) :
    openTags (lexemes ++ [lexeme]) = openStep (openTags lexemes) lexemes.length lexeme := by
  rw [openTags, List.zipIdx_append, List.foldl_append]
  simp [openTags]

theorem mem_makers : k ∈ makers lexemes ↔
    ∃ lexeme, lexemes[k]? = some lexeme ∧ makesNode (openTags (lexemes.take k)) lexeme = true := by
  rw [makers, List.mem_filter, List.mem_range, Option.any_eq_true]
  constructor
  · exact fun h => h.2
  · rintro ⟨lexeme, hlexeme, hmakes⟩
    exact ⟨(List.getElem?_eq_some_iff.mp hlexeme).choose, lexeme, hlexeme, hmakes⟩

theorem nodup_makers (lexemes : List Lexeme) : (makers lexemes).Nodup :=
  List.nodup_range.filter _

theorem lt_length_of_mem_makers (h : k ∈ makers lexemes) : k < lexemes.length :=
  List.mem_range.mp (List.mem_filter.mp h).1

/-- More tokens leave the nodes that were made. -/
theorem makers_append (lexemes : List Lexeme) (lexeme : Lexeme) :
    makers (lexemes ++ [lexeme]) = makers lexemes ++
      if makesNode (openTags lexemes) lexeme then [lexemes.length] else [] := by
  have hold : (List.range lexemes.length).filter (fun k =>
      (lexemes ++ [lexeme])[k]?.any (makesNode (openTags ((lexemes ++ [lexeme]).take k)))) =
        makers lexemes := by
    refine List.filter_congr fun k hk => ?_
    have hlt := List.mem_range.mp hk
    rw [List.getElem?_append_left hlt, List.take_append_of_le_length (Nat.le_of_lt hlt)]
  rw [makers, List.length_append, List.length_singleton, List.range_succ, List.filter_append, hold,
    List.filter_singleton]
  simp

theorem nodeAt_append (h : k ∈ makers lexemes) (lexeme : Lexeme) :
    nodeAt (lexemes ++ [lexeme]) k = nodeAt lexemes k := by
  rw [nodeAt, makers_append, List.idxOf_append_of_mem h, nodeAt]

theorem nodeAt_length (h : makesNode (openTags lexemes) lexeme = true) :
    nodeAt (lexemes ++ [lexeme]) lexemes.length = (makers lexemes).length + 1 := by
  have hnot : lexemes.length ∉ makers lexemes := fun hin =>
    Nat.lt_irrefl _ (lt_length_of_mem_makers hin)
  rw [nodeAt, makers_append, if_pos h, List.idxOf_append_of_notMem hnot, List.idxOf_cons_self,
    Nat.add_zero]

theorem nodeAt_ne_zero (lexemes : List Lexeme) (k : Nat) : nodeAt lexemes k ≠ 0 :=
  Nat.succ_ne_zero _

theorem nodeAt_inj (hi : i ∈ makers lexemes) :
    nodeAt lexemes i = nodeAt lexemes k ↔ i = k := by
  rw [nodeAt, nodeAt, Nat.add_right_cancel_iff]
  exact List.idxOf_inj hi

/-- The nodes are numbered in the order of their tokens. -/
theorem nodeAt_of_getElem? {j : Nat} (h : (makers lexemes)[j]? = some k) :
    nodeAt lexemes k = j + 1 := by
  obtain ⟨hlt, rfl⟩ := List.getElem?_eq_some_iff.mp h
  rw [nodeAt, (nodup_makers lexemes).idxOf_getElem j hlt]

theorem mem_openStep {opened : List (Nat × String)} {tag : Nat × String}
    (h : tag ∈ openStep opened k lexeme) :
    tag ∈ opened ∨ ∃ directive attributes,
      lexeme = .directive directive (.ok (.opening tag.2 attributes)) ∧ tag.1 = k := by
  unfold openStep at h
  split at h
  next directive name attributes =>
    rcases List.mem_cons.mp h with rfl | h
    · exact .inr ⟨directive, attributes, rfl, rfl⟩
    · exact .inl h
  next =>
    split at h
    · exact .inl (List.mem_of_mem_tail h)
    · exact .inl h
  next => exact .inl h

/-- Open tags were opened. -/
theorem exists_opening_of_mem {tag : Nat × String} (h : tag ∈ openTags lexemes) :
    ∃ directive attributes,
      lexemes[tag.1]? = some (.directive directive (.ok (.opening tag.2 attributes))) := by
  induction lexemes using List.reverseRecOn with
  | nil => cases h
  | append_singleton lexemes lexeme ih =>
      rw [openTags_append] at h
      rcases mem_openStep h with h | ⟨directive, attributes, rfl, hk⟩
      · obtain ⟨directive, attributes, hopening⟩ := ih h
        have hlt := (List.getElem?_eq_some_iff.mp hopening).choose
        exact ⟨directive, attributes, by rw [List.getElem?_append_left hlt, hopening]⟩
      · exact ⟨directive, attributes, by rw [hk, List.getElem?_concat_length]⟩

theorem lt_length_of_mem_openTags {tag : Nat × String} (h : tag ∈ openTags lexemes) :
    tag.1 < lexemes.length := by
  obtain ⟨directive, attributes, hopening⟩ := exists_opening_of_mem h
  exact (List.getElem?_eq_some_iff.mp hopening).choose

theorem mem_makers_of_opening
    (h : lexemes[i]? = some (.directive directive (.ok (.opening name attributes)))) :
    i ∈ makers lexemes :=
  mem_makers.mpr ⟨_, h, rfl⟩

theorem mem_makers_of_mem_openTags {tag : Nat × String} (h : tag ∈ openTags lexemes) :
    tag.1 ∈ makers lexemes := by
  obtain ⟨directive, attributes, hopening⟩ := exists_opening_of_mem h
  exact mem_makers_of_opening hopening

/-- No tag is open twice. -/
theorem nodup_openTags (lexemes : List Lexeme) : ((openTags lexemes).map Prod.fst).Nodup := by
  induction lexemes using List.reverseRecOn with
  | nil => exact List.nodup_nil
  | append_singleton lexemes lexeme ih =>
      rw [openTags_append]
      unfold openStep
      split
      · refine List.nodup_cons.mpr ⟨fun hin => ?_, ih⟩
        obtain ⟨tag, htag, heq⟩ := List.mem_map.mp hin
        exact Nat.ne_of_lt (lt_length_of_mem_openTags htag) heq
      · split
        · rw [List.map_tail]
          exact ih.tail
        · exact ih
      · exact ih

theorem exists_makers_append (lexemes more : List Lexeme) :
    ∃ rest, makers (lexemes ++ more) = makers lexemes ++ rest := by
  induction more using List.reverseRecOn with
  | nil => exact ⟨[], by rw [List.append_nil, List.append_nil]⟩
  | append_singleton more lexeme ih =>
      obtain ⟨rest, hrest⟩ := ih
      rw [← List.append_assoc, makers_append, hrest, List.append_assoc]
      exact ⟨_, rfl⟩

/-- A node keeps its number. -/
theorem nodeAt_take {m : Nat} (h : k ∈ makers (lexemes.take m)) :
    nodeAt (lexemes.take m) k = nodeAt lexemes k := by
  obtain ⟨rest, hrest⟩ := exists_makers_append (lexemes.take m) (lexemes.drop m)
  rw [List.take_append_drop] at hrest
  rw [nodeAt, nodeAt, hrest, List.idxOf_append_of_mem h]

theorem mem_makers_of_take {m : Nat} (h : k ∈ makers (lexemes.take m)) : k ∈ makers lexemes := by
  obtain ⟨rest, hrest⟩ := exists_makers_append (lexemes.take m) (lexemes.drop m)
  rw [List.take_append_drop] at hrest
  rw [hrest]
  exact List.mem_append_left rest h

/-- A tag that is open just before a token was opened by an earlier one. -/
theorem exists_opening_of_take {m : Nat} {tag : Nat × String}
    (h : tag ∈ openTags (lexemes.take m)) :
    tag.1 < m ∧ ∃ directive attributes,
      lexemes[tag.1]? = some (.directive directive (.ok (.opening tag.2 attributes))) := by
  have hlt : tag.1 < m :=
    Nat.lt_of_lt_of_le (lt_length_of_mem_openTags h) (List.length_take_le m lexemes)
  obtain ⟨directive, attributes, hopening⟩ := exists_opening_of_mem h
  rw [List.getElem?_take_of_lt hlt] at hopening
  exact ⟨hlt, directive, attributes, hopening⟩

/-- Just before a token, the open tags have the nodes that they have at the end. -/
theorem openNodes_take (lexemes : List Lexeme) (k : Nat) :
    openNodes (lexemes.take k) = (openTags (lexemes.take k)).map fun tag => nodeAt lexemes tag.1 :=
  List.map_congr_left fun _ htag => nodeAt_take (mem_makers_of_mem_openTags htag)

theorem ownerAt_eq (lexemes : List Lexeme) (k : Nat) :
    ownerAt lexemes k = (openNodes (lexemes.take k)).head?.getD 0 := by
  rw [ownerAt, openNodes_take, List.head?_map]
  cases (openTags (lexemes.take k)).head? <;> rfl

theorem ownerAt_append (h : k ≤ lexemes.length) (lexeme : Lexeme) :
    ownerAt (lexemes ++ [lexeme]) k = ownerAt lexemes k := by
  rw [ownerAt_eq, ownerAt_eq, List.take_append_of_le_length h]

theorem ownerAt_length (lexemes : List Lexeme) (lexeme : Lexeme) :
    ownerAt (lexemes ++ [lexeme]) lexemes.length = (openNodes lexemes).head?.getD 0 := by
  rw [ownerAt_eq, List.take_append_of_le_length (Nat.le_refl _), List.take_length]

/-- Open tags have the same nodes after one more token. -/
theorem map_nodeAt_append {opened : List (Nat × String)} (h : opened ⊆ openTags lexemes)
    (lexeme : Lexeme) :
    (opened.map fun tag => nodeAt (lexemes ++ [lexeme]) tag.1) =
      opened.map fun tag => nodeAt lexemes tag.1 :=
  List.map_congr_left fun _ htag => nodeAt_append (mem_makers_of_mem_openTags (h htag)) lexeme

/-- A token that neither opens nor closes leaves the open tags. -/
theorem openNodes_append (h : openTags (lexemes ++ [lexeme]) = openTags lexemes) :
    openNodes (lexemes ++ [lexeme]) = openNodes lexemes := by
  rw [openNodes, h, map_nodeAt_append (List.Subset.refl _), openNodes]

theorem openNodes_opening (directive : Directive) (name : String) (attributes : List Attribute) :
    openNodes (lexemes ++ [.directive directive (.ok (.opening name attributes))]) =
      ((makers lexemes).length + 1) :: openNodes lexemes := by
  rw [openNodes, openTags_append, openStep, List.map_cons, nodeAt_length rfl,
    map_nodeAt_append (List.Subset.refl _), openNodes]

theorem openNodes_closing
    (h : openTags (lexemes ++ [lexeme]) = (openTags lexemes).tail) :
    openNodes (lexemes ++ [lexeme]) = (openNodes lexemes).tail := by
  rw [openNodes, h, map_nodeAt_append fun _ => List.mem_of_mem_tail, List.map_tail, openNodes]

theorem nodup_openNodes (lexemes : List Lexeme) : (openNodes lexemes).Nodup := by
  have hpositions := nodup_openTags lexemes
  have hmap : openNodes lexemes = ((openTags lexemes).map Prod.fst).map (nodeAt lexemes) := by
    rw [List.map_map]
    rfl
  rw [hmap]
  refine hpositions.map_on fun i hi k _ heq => ?_
  obtain ⟨tag, htag, rfl⟩ := List.mem_map.mp hi
  exact (nodeAt_inj (mem_makers_of_mem_openTags htag)).mp heq

theorem mem_openNodes_iff (h : k ∈ makers lexemes) :
    nodeAt lexemes k ∈ openNodes lexemes ↔ ∃ name, (k, name) ∈ openTags lexemes := by
  rw [openNodes, List.mem_map]
  constructor
  · rintro ⟨⟨i, name⟩, htag, heq⟩
    obtain rfl := (nodeAt_inj h).mp heq.symm
    exact ⟨name, htag⟩
  · rintro ⟨name, htag⟩
    exact ⟨(k, name), htag, rfl⟩

theorem closedBy_append : ClosedBy (lexemes ++ [lexeme]) i k directive ↔
    ClosedBy lexemes i k directive ∨ k = lexemes.length ∧
      ∃ name, lexeme = .directive directive (.ok (.closing name)) ∧
        (openTags lexemes).head? = some (i, name) := by
  rcases Nat.lt_trichotomy k lexemes.length with hk | rfl | hk
  · have hne : k ≠ lexemes.length := Nat.ne_of_lt hk
    simp only [ClosedBy, List.getElem?_append_left hk,
      List.take_append_of_le_length (Nat.le_of_lt hk), hne, false_and, or_false]
  · simp [ClosedBy]
  · have hne : k ≠ lexemes.length := Nat.ne_of_gt hk
    have hnone : lexemes[k]? = none := List.getElem?_eq_none (Nat.le_of_lt hk)
    have hnone' : (lexemes ++ [lexeme])[k]? = none := by
      refine List.getElem?_eq_none ?_
      rwa [List.length_append, List.length_singleton]
    simp [ClosedBy, hnone, hnone', hne]

/-- A token that does not close the tag does not matter to it. -/
theorem closedBy_append_of_ne
    (hne : ∀ closing name, lexeme = .directive closing (.ok (.closing name)) →
      (openTags lexemes).head? ≠ some (i, name)) :
    ClosedBy (lexemes ++ [lexeme]) i k directive ↔ ClosedBy lexemes i k directive := by
  rw [closedBy_append, or_iff_left]
  rintro ⟨-, name, heq, hhead⟩
  exact hne directive name heq hhead

/-- A token that makes a node closes no tag. -/
theorem head?_ne_of_makesNode {opened : List (Nat × String)} {closing : Directive}
    (h : makesNode opened lexeme = true)
    (hclosing : lexeme = .directive closing (.ok (.closing name))) :
    opened.head? ≠ some (i, name) := by
  subst hclosing
  intro hhead
  simp [makesNode, hhead] at h

/-- A token that makes a node opens a tag or leaves the open tags. -/
theorem openNodes_of_makesNode (h : makesNode (openTags lexemes) lexeme = true) :
    openNodes (lexemes ++ [lexeme]) = openNodes lexemes ∨
      openNodes (lexemes ++ [lexeme]) = ((makers lexemes).length + 1) :: openNodes lexemes := by
  unfold makesNode at h
  split at h
  next => exact .inl (openNodes_append (openTags_append _ _))
  next directive name attributes => exact .inr (openNodes_opening directive name attributes)
  next => exact .inl (openNodes_append (openTags_append _ _))
  next name =>
    refine .inl (openNodes_append ?_)
    rw [openTags_append, openStep, if_neg (by simpa using h)]
  next => cases h
  next => exact .inl (openNodes_append (openTags_append _ _))

theorem ClosedBy.lt (h : ClosedBy lexemes i k directive) : i < k := by
  obtain ⟨name, -, hopen⟩ := h
  exact (exists_opening_of_take (List.mem_of_mem_head? hopen)).1

/-- What a token closes was opened. -/
theorem ClosedBy.exists_opening (h : ClosedBy lexemes i k directive) :
    ∃ opening name attributes,
      lexemes[i]? = some (.directive opening (.ok (.opening name attributes))) := by
  obtain ⟨name, -, hopen⟩ := h
  obtain ⟨-, opening, attributes, hopening⟩ := exists_opening_of_take (List.mem_of_mem_head? hopen)
  exact ⟨opening, name, attributes, hopening⟩

/-- What comes next was not closed before it came. -/
theorem not_closedBy_length : ¬ ClosedBy lexemes lexemes.length k directive := by
  intro h
  obtain ⟨_, _, _, hopening⟩ := h.exists_opening
  exact Nat.lt_irrefl _ (List.getElem?_eq_some_iff.mp hopening).choose

/-- A token that does not close the tag leaves it open. -/
theorem mem_openStep_iff {opened : List (Nat × String)} (hne : i ≠ k)
    (hnot : ∀ closing name, lexeme = .directive closing (.ok (.closing name)) →
      opened.head? ≠ some (i, name)) :
    (i, name) ∈ openStep opened k lexeme ↔ (i, name) ∈ opened := by
  unfold openStep
  split
  next => simp [hne]
  next closing other =>
    split
    next hname =>
      match opened with
      | [] => rfl
      | tag :: opened =>
          have htag : tag.2 = other := Option.some.inj hname
          have happart : (i, name) ≠ tag := by
            rintro rfl
            exact hnot closing other rfl (by rw [List.head?_cons, ← htag])
          simp [happart]
    next => rfl
  next => rfl

/-- A tag that is closed is open no more. -/
theorem not_mem_tail {opened : List (Nat × String)} {other : String}
    (hnodup : (opened.map Prod.fst).Nodup) (h : opened.head? = some (i, name)) :
    (i, other) ∉ opened.tail := by
  obtain ⟨rest, rfl⟩ := List.head?_eq_some_iff.mp h
  intro hin
  exact (List.nodup_cons.mp hnodup).1 (List.mem_map.mpr ⟨(i, other), hin, rfl⟩)

/-- A tag is open and no token closes it, or it is not open and one token closes it. -/
def OpenOrClosed (lexemes : List Lexeme) (i : Nat) (name : String) : Prop :=
  (i, name) ∈ openTags lexemes ∧ (∀ k closing, ¬ ClosedBy lexemes i k closing) ∨
    (∀ other, (i, other) ∉ openTags lexemes) ∧ ∃ k closing, ClosedBy lexemes i k closing ∧
      ∀ k' closing', ClosedBy lexemes i k' closing' → k' = k ∧ closing' = closing

theorem openOrClosed_opening (lexemes : List Lexeme) (directive : Directive) (name : String)
    (attributes : List Attribute) :
    OpenOrClosed (lexemes ++ [.directive directive (.ok (.opening name attributes))])
      lexemes.length name := by
  refine .inl ⟨?_, fun k closing hclosed => ?_⟩
  · rw [openTags_append]
    exact List.mem_cons_self
  · rcases closedBy_append.mp hclosed with hclosed | ⟨-, _, heq, _⟩
    · exact not_closedBy_length hclosed
    · cases heq

/-- The token that closes a tag is the only one to do so. -/
theorem OpenOrClosed.closing {other : String} (h : OpenOrClosed lexemes i name)
    (hhead : (openTags lexemes).head? = some (i, other)) (directive : Directive) :
    OpenOrClosed (lexemes ++ [.directive directive (.ok (.closing other))]) i name := by
  have hopen : (i, other) ∈ openTags lexemes := List.mem_of_mem_head? hhead
  obtain ⟨-, hnever⟩ := Or.resolve_right h fun hclosed => hclosed.1 other hopen
  refine .inr ⟨fun _ => ?_, lexemes.length, directive, ?_, fun k closing hclosed => ?_⟩
  · rw [openTags_append, openStep, if_pos (by rw [hhead, Option.map_some])]
    exact not_mem_tail (nodup_openTags lexemes) hhead
  · exact closedBy_append.mpr (.inr ⟨rfl, other, rfl, hhead⟩)
  · rcases closedBy_append.mp hclosed with hclosed | ⟨rfl, _, heq, _⟩
    · exact absurd hclosed (hnever k closing)
    · cases heq
      exact ⟨rfl, rfl⟩

/-- A token that does not close the tag leaves it open or closed. -/
theorem OpenOrClosed.append (h : OpenOrClosed lexemes i name) (hi : i < lexemes.length)
    (hne : ∀ closing other, lexeme = .directive closing (.ok (.closing other)) →
      (openTags lexemes).head? ≠ some (i, other)) :
    OpenOrClosed (lexemes ++ [lexeme]) i name := by
  have hmem : ∀ other, (i, other) ∈ openTags (lexemes ++ [lexeme]) ↔
      (i, other) ∈ openTags lexemes := by
    intro other
    rw [openTags_append]
    exact mem_openStep_iff (Nat.ne_of_lt hi) hne
  unfold OpenOrClosed
  simp only [hmem, closedBy_append_of_ne hne]
  exact h

/-- A tag is open to the end, or one token closes it. -/
theorem openOrClosed
    (h : lexemes[i]? = some (.directive directive (.ok (.opening name attributes)))) :
    OpenOrClosed lexemes i name := by
  induction lexemes using List.reverseRecOn with
  | nil => cases h
  | append_singleton lexemes lexeme ih =>
      have hle : i < (lexemes ++ [lexeme]).length := (List.getElem?_eq_some_iff.mp h).choose
      rw [List.length_append, List.length_singleton] at hle
      rcases Nat.lt_or_eq_of_le (Nat.le_of_lt_succ hle) with hi | rfl
      · rw [List.getElem?_append_left hi] at h
        by_cases hcloses : ∃ closing other, lexeme = .directive closing (.ok (.closing other)) ∧
            (openTags lexemes).head? = some (i, other)
        · obtain ⟨closing, other, rfl, hhead⟩ := hcloses
          exact (ih h).closing hhead closing
        · exact (ih h).append hi fun closing other heq hhead => hcloses ⟨closing, other, heq, hhead⟩
      · rw [List.getElem?_concat_length] at h
        obtain rfl := Option.some.inj h
        exact openOrClosed_opening lexemes directive name attributes

theorem not_closedBy_of_mem (h : (i, name) ∈ openTags lexemes) :
    ¬ ClosedBy lexemes i k directive := by
  intro hclosed
  obtain ⟨opening, attributes, hopening⟩ := exists_opening_of_mem h
  rcases openOrClosed hopening with ⟨-, hnever⟩ | ⟨hgone, -⟩
  · exact hnever k directive hclosed
  · exact hgone name h

/-- The tag `b` is open while `a` is closed, so `a` stays open and its closing makes a node. -/
example (d : Directive) :
    let lexemes : List Lexeme := [.directive d (.ok (.opening "a" [])),
      .directive d (.ok (.opening "b" [])), .directive d (.ok (.closing "a")),
      .directive d (.ok (.closing "b"))]
    openTags lexemes = [(0, "a")] ∧ makers lexemes = [0, 1, 2] :=
  ⟨rfl, rfl⟩

end TaggedText.Outline
