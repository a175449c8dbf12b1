import TaggedText.CommandLine
import TaggedText.Proofs.Outline.Balance
import TaggedText.Proofs.Outline.Matching
import TaggedText.Proofs.Outline.Mirroring
import TaggedText.Proofs.Sites

/-!
# The problems of a document

A token brings at most one problem into a document: a directive with a syntax error does, a stray
closing directive does, and a directive that opens a tag does if the tag is open at the end. The
problems below the root are those of the tokens, in the order of the tokens. Their number is that of
the syntax errors, the stray closings and the tags left open together.
-/
namespace TaggedText

open Outline

namespace Outline

/-- The problem that the token at a position brings. -/
def problemAt? (lexemes : List Lexeme) (k : Nat) : Option Problem :=
  match lexemes[k]? with
  | some (.directive _ (.error e)) => some ⟨"syntax-error", .critical, e.message, some e.location⟩
  | some (.directive directive (.ok (.closing name))) =>
      if isStray lexemes k then
        some ⟨"unexpected-closing", .critical, "Unexpected closing tag '" ++ name ++ "'", some
          ⟨⟨directive.lines.1, directive.columns.1⟩, ⟨directive.lines.2, directive.columns.2⟩⟩⟩
      else none
  | some (.directive directive (.ok (.opening name _))) =>
      if (k, name) ∈ openTags lexemes then
        some ⟨"missing-closing", .critical, "Node '" ++ name ++ "' is missing closing", some
          ⟨⟨directive.lines.1, directive.columns.1⟩, ⟨directive.lines.2, directive.columns.2⟩⟩⟩
      else none
  | _ => none

/-- The problems of all tokens. -/
def problems (lexemes : List Lexeme) : List Problem :=
  (List.range lexemes.length).filterMap (problemAt? lexemes)

/-- The number of directives with a syntax error. -/
def errorCount (lexemes : List Lexeme) : Nat :=
  lexemes.countP fun lexeme => lexeme.error?.isSome

/-- The number of closing directives that match no innermost open tag. -/
def strayCount (lexemes : List Lexeme) : Nat :=
  (List.range lexemes.length).countP (isStray lexemes)

variable {lexemes : List Lexeme} {lexeme : Lexeme} {directive : Directive} {name : String}
variable {attributes : List Attribute} {k : Nat}

theorem isStray_closing
    (h : lexemes[k]? = some (.directive directive (.ok (.closing name)))) :
    isStray lexemes k = ((openTags (lexemes.take k)).head?.map Prod.snd != some name) := by
  rw [isStray, h, Option.any_some, closesNothing]

theorem isStray_of_ne (hlexeme : lexemes[k]? = some lexeme)
    (h : ∀ directive name, lexeme ≠ .directive directive (.ok (.closing name))) :
    isStray lexemes k = false := by
  rw [isStray, hlexeme, Option.any_some]
  unfold closesNothing
  split
  next => exact absurd rfl (h _ _)
  next => rfl

theorem mem_openTags_opening
    (h : lexemes[k]? = some (.directive directive (.ok (.opening name attributes)))) :
    (k, name) ∈ openTags lexemes ↔ k ∈ (openTags lexemes).map Prod.fst := by
  constructor
  · exact fun hopen => List.mem_map.mpr ⟨_, hopen, rfl⟩
  · intro hopen
    obtain ⟨tag, htag, rfl⟩ := List.mem_map.mp hopen
    obtain ⟨_, _, hopening⟩ := exists_opening_of_mem htag
    rw [h] at hopening
    cases hopening
    exact htag

theorem not_mem_openTags_of_ne (hlexeme : lexemes[k]? = some lexeme)
    (h : ∀ directive name attributes,
      lexeme ≠ .directive directive (.ok (.opening name attributes))) :
    k ∉ (openTags lexemes).map Prod.fst := by
  intro hopen
  obtain ⟨tag, htag, rfl⟩ := List.mem_map.mp hopen
  obtain ⟨directive, attributes, hopening⟩ := exists_opening_of_mem htag
  rw [hlexeme] at hopening
  exact h directive tag.2 attributes (Option.some.inj hopening)

theorem problemAt?_opening
    (h : lexemes[k]? = some (.directive directive (.ok (.opening name attributes)))) :
    problemAt? lexemes k = if (k, name) ∈ openTags lexemes then
      some ⟨"missing-closing", .critical, "Node '" ++ name ++ "' is missing closing", some
        ⟨⟨directive.lines.1, directive.columns.1⟩, ⟨directive.lines.2, directive.columns.2⟩⟩⟩
      else none := by
  rw [problemAt?, h]

theorem problemAt?_closing
    (h : lexemes[k]? = some (.directive directive (.ok (.closing name)))) :
    problemAt? lexemes k = if isStray lexemes k then
      some ⟨"unexpected-closing", .critical, "Unexpected closing tag '" ++ name ++ "'", some
        ⟨⟨directive.lines.1, directive.columns.1⟩, ⟨directive.lines.2, directive.columns.2⟩⟩⟩
      else none := by
  rw [problemAt?, h]

/-- A token that makes no node brings no problem. -/
theorem problemAt?_eq_none (h : k ∉ makers lexemes) : problemAt? lexemes k = none := by
  unfold problemAt?
  split
  next hlexeme => exact absurd (mem_makers.mpr ⟨_, hlexeme, rfl⟩) h
  next hlexeme =>
    refine if_neg fun hstray => h (mem_makers.mpr ⟨_, hlexeme, ?_⟩)
    rwa [isStray_closing hlexeme] at hstray
  next hlexeme => exact absurd (mem_makers_of_opening hlexeme) h
  next => rfl

theorem problems_eq_filterMap_makers (lexemes : List Lexeme) :
    problems lexemes = (makers lexemes).filterMap (problemAt? lexemes) := by
  rw [makers, List.filterMap_filter, problems]
  refine List.filterMap_congr fun k hk => ?_
  split
  next => rfl
  next hmakes =>
    refine problemAt?_eq_none fun hmem => hmakes ?_
    exact (List.mem_filter.mp hmem).2

/-- A problem has one of three reasons, and no more than one. -/
theorem problemAt?_isSome (hk : k < lexemes.length) :
    (if (problemAt? lexemes k).isSome then 1 else 0) =
      (if lexemes[k]?.any fun lexeme => lexeme.error?.isSome then 1 else 0) +
        (if isStray lexemes k then 1 else 0) +
          (if k ∈ (openTags lexemes).map Prod.fst then 1 else 0) := by
  have ⟨lexeme, hlexeme⟩ : ∃ lexeme, lexemes[k]? = some lexeme :=
    ⟨_, List.getElem?_eq_getElem hk⟩
  unfold problemAt?
  split
  next h =>
    have hopen := not_mem_openTags_of_ne h nofun
    simp [h, Lexeme.error?, isStray_of_ne h nofun, hopen]
  next h =>
    have hopen := not_mem_openTags_of_ne h nofun
    rw [if_neg hopen, h]
    by_cases hstray : isStray lexemes k = true <;> simp [Lexeme.error?, hstray]
  next h =>
    rw [isStray_of_ne h nofun, h]
    simp only [← mem_openTags_opening h]
    split <;> simp [Lexeme.error?]
  next herror hclosing hopening =>
    have hopen : k ∉ (openTags lexemes).map Prod.fst := by
      refine not_mem_openTags_of_ne hlexeme fun directive name attributes heq => ?_
      exact hopening directive name attributes (heq ▸ hlexeme)
    have hstray : isStray lexemes k = false := by
      refine isStray_of_ne hlexeme fun directive name heq => ?_
      exact hclosing directive name (heq ▸ hlexeme)
    have hnone : lexeme.error? = none := by
      refine Option.eq_none_iff_forall_ne_some.mpr fun e he => ?_
      obtain ⟨directive, rfl⟩ := Lexeme.error?_eq_some_iff.mp he
      exact herror directive e hlexeme
    simp [hlexeme, hnone, hstray, hopen]

theorem countP_range_getElem? (p : Lexeme → Bool) (lexemes : List Lexeme) :
    (List.range lexemes.length).countP (fun k => lexemes[k]?.any p) = lexemes.countP p := by
  induction lexemes using List.reverseRecOn with
  | nil => rfl
  | append_singleton lexemes lexeme ih =>
      have hold : (List.range lexemes.length).countP (fun k => (lexemes ++ [lexeme])[k]?.any p) =
          lexemes.countP p := by
        rw [← ih]
        refine List.countP_congr fun k hk => ?_
        rw [List.getElem?_append_left (List.mem_range.mp hk)]
      rw [List.length_append, List.length_singleton, List.range_succ, List.countP_append, hold,
        List.countP_append, List.countP_singleton, List.countP_singleton,
        List.getElem?_concat_length, Option.any_some]

/-- Every open tag has a position of its own. -/
theorem countP_mem_openTags (lexemes : List Lexeme) :
    (List.range lexemes.length).countP (fun k => k ∈ (openTags lexemes).map Prod.fst) =
      (openTags lexemes).length := by
  have hperm : ((List.range lexemes.length).filter
      fun k => k ∈ (openTags lexemes).map Prod.fst).Perm ((openTags lexemes).map Prod.fst) := by
    refine (List.perm_ext_iff_of_nodup (List.nodup_range.filter _)
      (nodup_openTags lexemes)).mpr fun k => ?_
    rw [List.mem_filter, List.mem_range, decide_eq_true_iff, and_iff_right_iff_imp]
    intro hopen
    obtain ⟨tag, htag, rfl⟩ := List.mem_map.mp hopen
    exact lt_length_of_mem_openTags htag
  rw [List.countP_eq_length_filter, hperm.length_eq, List.length_map]

/-- The problems are the syntax errors, the stray closings and the tags left open. -/
theorem length_problems (lexemes : List Lexeme) :
    (problems lexemes).length =
      errorCount lexemes + strayCount lexemes + (openTags lexemes).length := by
  have hcount : ∀ ks : List Nat, (∀ k ∈ ks, k < lexemes.length) →
      ks.countP (fun k => (problemAt? lexemes k).isSome) =
        ks.countP (fun k => lexemes[k]?.any fun lexeme => lexeme.error?.isSome) +
          ks.countP (isStray lexemes) +
            ks.countP (fun k => k ∈ (openTags lexemes).map Prod.fst) := by
    intro ks hks
    induction ks with
    | nil => rfl
    | cons k ks ih =>
        have hk := problemAt?_isSome (hks k List.mem_cons_self)
        have hrest := ih fun k hk => hks k (List.mem_cons_of_mem _ hk)
        simp only [List.countP_cons, decide_eq_true_iff]
        omega
  rw [problems, List.length_filterMap_eq_countP, hcount _ fun k hk => List.mem_range.mp hk,
    countP_range_getElem?, countP_mem_openTags, errorCount, strayCount]

/-- A document has no problem if its directives have no syntax error and its tags are balanced. -/
theorem problems_eq_nil_iff : problems lexemes = [] ↔
    (∀ lexeme ∈ lexemes, lexeme.error? = none) ∧ Balanced (brackets lexemes) := by
  have herrors : errorCount lexemes = 0 ↔ ∀ lexeme ∈ lexemes, lexeme.error? = none := by
    simp [errorCount, List.countP_eq_zero]
  have hstrays : strayCount lexemes = 0 ↔ ∀ k < lexemes.length, isStray lexemes k = false := by
    simp [strayCount, List.countP_eq_zero]
  rw [← List.length_eq_zero_iff, length_problems, Nat.add_eq_zero_iff, Nat.add_eq_zero_iff, herrors,
    hstrays, List.length_eq_zero_iff, balanced_brackets_iff, and_assoc]

end Outline

namespace Outlined

variable {lexemes : List Lexeme} {lexeme : Lexeme} {document : Document} {k : Nat}

/-- The node of a token has the problem that the token brings. -/
theorem exists_problems_eq (h : Outlined lexemes document) (hk : k ∈ makers lexemes) :
    ∃ node, document.tree.get? (nodeAt lexemes k) = some node ∧
      node.content.problems = (problemAt? lexemes k).toList := by
  obtain ⟨lexeme, hlexeme, hmakes⟩ := mem_makers.mp hk
  have hmatched := h.matched
  unfold makesNode at hmakes
  split at hmakes
  next source =>
    obtain ⟨node, hnode, hproblems⟩ := hmatched.text k source hlexeme (by simpa using hmakes)
    exact ⟨node, hnode, by rw [hproblems, problemAt?, hlexeme]; rfl⟩
  next directive name attributes =>
    obtain ⟨node, hnode, ⟨closing, m, hclosed⟩ | hleft⟩ := hmatched.opening k _ _ _ hlexeme
    · have hgone : (k, name) ∉ openTags lexemes := fun hopen =>
        not_closedBy_of_mem hopen hclosed.closedBy
      refine ⟨node, hnode, ?_⟩
      rw [hclosed.problems_eq, problemAt?_opening hlexeme, if_neg hgone, Option.toList_none]
    · have ⟨hopen, _⟩ := Or.resolve_right (openOrClosed hlexeme)
        fun ⟨_, m, closing, hclosed, _⟩ => hleft.never m closing hclosed
      refine ⟨node, hnode, ?_⟩
      rw [hleft.problems_eq, problemAt?_opening hlexeme, if_pos hopen]
      rfl
  next directive name attributes =>
    obtain ⟨node, hnode, hproblems⟩ := hmatched.selfClosing k _ _ _ hlexeme
    exact ⟨node, hnode, by rw [hproblems, problemAt?, hlexeme]; rfl⟩
  next directive name =>
    rcases hmatched.closing k _ _ hlexeme with ⟨i, hcloses⟩ | hstray
    · exact absurd hk hcloses.not_mem
    · obtain ⟨node, hnode, -, hproblems⟩ := hstray.node
      refine ⟨node, hnode, ?_⟩
      rw [hproblems, problemAt?_closing hlexeme, isStray_closing hlexeme, if_pos hmakes]
      rfl
  next => cases hmakes
  next directive e =>
    obtain ⟨node, hnode, -, hproblems⟩ := hmatched.error k _ _ hlexeme
    exact ⟨node, hnode, by rw [hproblems, problemAt?, hlexeme]; rfl⟩

theorem map_nodeAt_makers (lexemes : List Lexeme) :
    (makers lexemes).map (nodeAt lexemes) = List.range' 1 (makers lexemes).length := by
  apply List.ext_getElem
  · rw [List.length_map, List.length_range']
  · intro j hj _
    rw [List.length_map] at hj
    rw [List.getElem_map, nodeAt_of_getElem? (List.getElem?_eq_getElem hj), List.getElem_range',
      Nat.one_mul, Nat.add_comm]

/-- The problems below the root are those of the tokens. -/
theorem problems_eq (h : Outlined lexemes document) :
    CommandLine.FileReport.problems document = problems lexemes := by
  have hnodes : ∀ ks : List Nat, (∀ k ∈ ks, k ∈ makers lexemes) →
      ((ks.map (nodeAt lexemes)).filterMap document.tree.view?).flatMap
        (fun view => view.content.problems) = ks.filterMap (problemAt? lexemes) := by
    intro ks hks
    induction ks with
    | nil => rfl
    | cons k ks ih =>
        obtain ⟨node, hnode, hproblems⟩ := h.exists_problems_eq (hks k List.mem_cons_self)
        have hrest := ih fun k hk => hks k (List.mem_cons_of_mem _ hk)
        obtain ⟨hlt, hget⟩ := Array.getElem?_eq_some_iff.mp hnode
        rw [List.map_cons, List.filterMap_cons_some (dif_pos hlt), List.flatMap_cons, hrest]
        change (document.tree.nodes[nodeAt lexemes k]).content.problems ++ _ = _
        rw [hget, hproblems]
        cases hproblem : problemAt? lexemes k <;> simp [hproblem]
  rw [CommandLine.FileReport.problems, NodeView.walk]
  change ((document.walk).filterMap document.tree.view?).flatMap _ = _
  rw [h.walk_eq, ← map_nodeAt_makers, hnodes _ fun _ hk => hk, problems_eq_filterMap_makers]

end Outlined

end TaggedText
