import TaggedText.Proofs.Outline.Building

/-!
# Tags and the directives that close them

A tag in a finished document is closed or left open. A closed one bears the lines of both
directives, its location goes from the one to the other, and nothing is wrong with it; exactly one
later directive closes it. One that is left open bears what its own directive says, and the problem
that its closing is missing.

A closing directive closes the innermost open tag if it has its name. If not, it becomes a node that
bears a problem, and the same tags stay open. Nothing else bears a problem but a directive with a
syntax error.
-/
namespace TaggedText

open Outline

variable {lexemes : List Lexeme} {lexeme : Lexeme} {document : Document} {directive : Directive}
variable {content : Content} {name : String} {attributes : List Attribute} {i k : Nat}

/-- What a tag holds that exactly one later directive closes. -/
structure IsClosed (lexemes : List Lexeme) (i : Nat) (directive : Directive) (content : Content)
    (closing : Directive) (k : Nat) : Prop where
  lt : i < k
  closedBy : ClosedBy lexemes i k closing
  unique : ∀ k' closing', ClosedBy lexemes i k' closing' → k' = k
  lines_eq : content.lines =
    [directive.lines.1, directive.lines.2, closing.lines.1, closing.lines.2]
  location_eq : content.location = some
    ⟨⟨directive.lines.1, directive.columns.1⟩, ⟨closing.lines.2, closing.columns.2⟩⟩
  problems_eq : content.problems = []

/-- What a tag holds that no directive closes. -/
structure IsLeftOpen (lexemes : List Lexeme) (i : Nat) (directive : Directive) (name : String)
    (content : Content) : Prop where
  never : ∀ k closing, ¬ ClosedBy lexemes i k closing
  lines_eq : content.lines = [directive.lines.1, directive.lines.2]
  location_eq : content.location = some
    ⟨⟨directive.lines.1, directive.columns.1⟩, ⟨directive.lines.2, directive.columns.2⟩⟩
  problems_eq : content.problems = [⟨"missing-closing", .critical,
    "Node '" ++ name ++ "' is missing closing", some
      ⟨⟨directive.lines.1, directive.columns.1⟩, ⟨directive.lines.2, directive.columns.2⟩⟩⟩]

/-- A closing directive that closes the innermost open tag makes no node. -/
structure Closes (lexemes : List Lexeme) (k : Nat) (directive : Directive) (name : String)
    (i : Nat) : Prop where
  innermost : (openTags (lexemes.take k)).head? = some (i, name)
  closedBy : ClosedBy lexemes i k directive
  openTags_eq : openTags (lexemes.take (k + 1)) = (openTags (lexemes.take k)).tail
  not_mem : k ∉ makers lexemes

/-- A closing directive that closes nothing makes a node with a problem. -/
structure IsStray (lexemes : List Lexeme) (document : Document) (k : Nat) (directive : Directive)
    (name : String) : Prop where
  not_innermost : ∀ i, (openTags (lexemes.take k)).head? ≠ some (i, name)
  never : ∀ i closing, ¬ ClosedBy lexemes i k closing
  openTags_eq : openTags (lexemes.take (k + 1)) = openTags (lexemes.take k)
  mem : k ∈ makers lexemes
  node : ∃ node, document.tree.get? (nodeAt lexemes k) = some node ∧
    node.content.kind = .error ∧ node.content.problems = [⟨"unexpected-closing", .critical,
      "Unexpected closing tag '" ++ name ++ "'", some
        ⟨⟨directive.lines.1, directive.columns.1⟩, ⟨directive.lines.2, directive.columns.2⟩⟩⟩]

/-- How the directives of a list of tokens match, and what their nodes bear of it. -/
structure Matched (lexemes : List Lexeme) (document : Document) : Prop where
  /-- The nodes are the root and one for each token that makes one. -/
  size_eq : document.tree.size = (makers lexemes).length + 1
  /-- After any of the tokens, the draft has the open tags that are meant here. -/
  opened : ∀ k, ∃ draft, (Draft.start >>= (lexemes.take k).foldlM Draft.take) = .ok draft ∧
    draft.opened = (openTags (lexemes.take k)).map fun tag => nodeAt lexemes tag.1
  opening : ∀ i directive name attributes,
    lexemes[i]? = some (.directive directive (.ok (.opening name attributes))) →
      ∃ node, document.tree.get? (nodeAt lexemes i) = some node ∧
        ((∃ closing k, IsClosed lexemes i directive node.content closing k) ∨
          IsLeftOpen lexemes i directive name node.content)
  closing : ∀ k directive name, lexemes[k]? = some (.directive directive (.ok (.closing name))) →
    (∃ i, Closes lexemes k directive name i) ∨ IsStray lexemes document k directive name
  selfClosing : ∀ k directive name attributes,
    lexemes[k]? = some (.directive directive (.ok (.selfClosing name attributes))) →
      ∃ node, document.tree.get? (nodeAt lexemes k) = some node ∧ node.content.problems = []
  text : ∀ k source, lexemes[k]? = some (.text source) → source ≠ "" →
    ∃ node, document.tree.get? (nodeAt lexemes k) = some node ∧ node.content.problems = []
  root : ∃ node, document.tree.get? document.root = some node ∧ node.content.problems = []
  error : ∀ k directive e, lexemes[k]? = some (.directive directive (.error e)) →
    ∃ node, document.tree.get? (nodeAt lexemes k) = some node ∧ node.content.kind = .error ∧
      node.content.problems = [⟨"syntax-error", .critical, e.message, some e.location⟩]

/-- What a node holds that no later token changes. -/
theorem Outlined.exists_made (h : Outlined lexemes document) (hk : k ∈ makers lexemes)
    (hlexeme : lexemes[k]? = some lexeme)
    (hleaf : ∀ directive name attributes,
      lexeme ≠ .directive directive (.ok (.opening name attributes))) :
    ∃ node, document.tree.get? (nodeAt lexemes k) = some node ∧
      node.content.bare = lexeme.content := by
  obtain ⟨node, hnode, -, hholds⟩ := h.node k hk lexeme hlexeme
  refine ⟨node, hnode, ?_⟩
  rcases hholds with ⟨m, closing, hclosed, -⟩ | ⟨-, heq⟩
  · obtain ⟨opening, name, attributes, hopening⟩ := hclosed.exists_opening
    exact absurd (Option.some.inj (hlexeme.symm.trans hopening)) (hleaf opening name attributes)
  · rw [if_neg] at heq
    · exact heq
    · rw [mem_openNodes_iff hk]
      rintro ⟨name, hopen⟩
      obtain ⟨opening, attributes, hopening⟩ := exists_opening_of_mem hopen
      exact hleaf opening name attributes (Option.some.inj (hlexeme.symm.trans hopening))

theorem Outlined.opening (h : Outlined lexemes document)
    (hopening : lexemes[i]? = some (.directive directive (.ok (.opening name attributes)))) :
    ∃ node, document.tree.get? (nodeAt lexemes i) = some node ∧
      ((∃ closing k, IsClosed lexemes i directive node.content closing k) ∨
        IsLeftOpen lexemes i directive name node.content) := by
  have hi := mem_makers_of_opening hopening
  obtain ⟨node, hnode, -, hholds⟩ := h.node i hi _ hopening
  refine ⟨node, hnode, ?_⟩
  rcases hholds with ⟨k, closing, hclosed, heq⟩ | ⟨hnever, heq⟩
  · obtain ⟨-, m, other, -, hunique⟩ := Or.resolve_left (openOrClosed hopening) fun hopen =>
      hopen.2 k closing hclosed
    refine .inl ⟨closing, k, hclosed.lt, hclosed, fun k' closing' hclosed' => ?_, ?_, ?_, ?_⟩
    · exact (hunique k' closing' hclosed').1.trans (hunique k closing hclosed).1.symm
    · exact congrArg Content.lines heq
    · exact congrArg Content.location heq
    · exact congrArg Content.problems heq
  · obtain ⟨hopen, -⟩ := Or.resolve_right (openOrClosed hopening)
      fun ⟨_, k, closing, hclosed, _⟩ => hnever k closing hclosed
    rw [if_pos ((mem_openNodes_iff hi).mpr ⟨name, hopen⟩)] at heq
    refine .inr ⟨hnever, ?_, ?_, ?_⟩
    · exact congrArg Content.lines heq
    · exact congrArg Content.location heq
    · exact congrArg Content.problems heq

theorem Outline.openTags_take_succ (h : lexemes[k]? = some lexeme) :
    openTags (lexemes.take (k + 1)) = openStep (openTags (lexemes.take k)) k lexeme := by
  obtain ⟨hlt, rfl⟩ := List.getElem?_eq_some_iff.mp h
  rw [List.take_succ_eq_append_getElem hlt, openTags_append, List.length_take,
    Nat.min_eq_left (Nat.le_of_lt hlt)]

theorem Outlined.closing (h : Outlined lexemes document)
    (hclosing : lexemes[k]? = some (.directive directive (.ok (.closing name)))) :
    (∃ i, Closes lexemes k directive name i) ∨ IsStray lexemes document k directive name := by
  by_cases hname : (openTags (lexemes.take k)).head?.map Prod.snd = some name
  · obtain ⟨⟨i, _⟩, hhead, rfl⟩ := Option.map_eq_some_iff.mp hname
    refine .inl ⟨i, hhead, ⟨_, hclosing, hhead⟩, ?_, fun hk => ?_⟩
    · rw [openTags_take_succ hclosing, openStep, if_pos hname]
    · obtain ⟨made, hmade, hmakes⟩ := mem_makers.mp hk
      obtain rfl := Option.some.inj (hclosing.symm.trans hmade)
      exact head?_ne_of_makesNode hmakes rfl hhead
  · have hne : ∀ i, (openTags (lexemes.take k)).head? ≠ some (i, name) := by
      intro i hhead
      exact hname (by rw [hhead, Option.map_some])
    have hmem : k ∈ makers lexemes := by
      refine mem_makers.mpr ⟨_, hclosing, ?_⟩
      simpa [makesNode] using hname
    refine .inr ⟨hne, fun i closing hclosed => ?_, ?_, hmem, ?_⟩
    · obtain ⟨other, hother, hhead⟩ := hclosed
      obtain ⟨rfl, hsame⟩ := Lexeme.directive.inj (Option.some.inj (hclosing.symm.trans hother))
      obtain rfl := Descriptor.closing.inj (Except.ok.inj hsame)
      exact hne i hhead
    · rw [openTags_take_succ hclosing, openStep, if_neg hname]
    · obtain ⟨node, hnode, hmade⟩ := h.exists_made hmem hclosing (by rintro _ _ _ ⟨⟩)
      exact ⟨node, hnode, congrArg Content.kind hmade, congrArg Content.problems hmade⟩

theorem Outlined.matched (h : Outlined lexemes document) : Matched lexemes document where
  size_eq := h.size_eq
  opened k := by
    obtain ⟨draft, hdraft, hdrafted⟩ := Drafted.exists_of_lexemes (lexemes.take k)
    exact ⟨draft, hdraft, hdrafted.opened_eq.trans (openNodes_take lexemes k)⟩
  opening _ _ _ _ := h.opening
  closing _ _ _ := h.closing
  selfClosing k directive name attributes hlexeme := by
    have hmem : k ∈ makers lexemes := mem_makers.mpr ⟨_, hlexeme, rfl⟩
    obtain ⟨node, hnode, hmade⟩ := h.exists_made hmem hlexeme (by rintro _ _ _ ⟨⟩)
    exact ⟨node, hnode, congrArg Content.problems hmade⟩
  text k source hlexeme hne := by
    have hmakes : makesNode (openTags (lexemes.take k)) (.text source) = true := by
      simpa [makesNode] using hne
    have hmem : k ∈ makers lexemes := mem_makers.mpr ⟨_, hlexeme, hmakes⟩
    obtain ⟨node, hnode, hmade⟩ := h.exists_made hmem hlexeme (by rintro _ _ _ ⟨⟩)
    exact ⟨node, hnode, congrArg Content.problems hmade⟩
  root := by
    obtain ⟨node, hnode, -, hcontent⟩ := h.root_node
    refine ⟨node, ?_, congrArg Content.problems hcontent⟩
    rw [h.root_eq, hnode]
  error k directive e hlexeme := by
    have hmem : k ∈ makers lexemes := mem_makers.mpr ⟨_, hlexeme, rfl⟩
    obtain ⟨node, hnode, hmade⟩ := h.exists_made hmem hlexeme (by rintro _ _ _ ⟨⟩)
    exact ⟨node, hnode, congrArg Content.kind hmade, congrArg Content.problems hmade⟩

/-- Every list of tokens has a document in which its directives are matched. -/
theorem exists_matched (tokens : List Token) :
    ∃ document, Document.ofTokens tokens = .ok document ∧
      Matched (tokens.map Token.lexeme) document := by
  obtain ⟨document, hdocument, houtlined⟩ := exists_outlined tokens
  exact ⟨document, hdocument, houtlined.matched⟩

end TaggedText
