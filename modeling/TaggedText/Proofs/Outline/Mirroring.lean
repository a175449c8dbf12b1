import TaggedText.Proofs.Coverage
import TaggedText.Proofs.Outline.Building
import TaggedText.Proofs.Ownership.Drafting
import TaggedText.Proofs.Walk

/-!
# A document mirrors its tokens

Every list of tokens leads to a document, also one that no text has. Its nodes are the root and one
node for each token that makes one, in the order of the tokens, which is the order of the document
too. Each of them goes below the innermost tag that is open just before its token.
-/
namespace TaggedText

open Links Outline

variable {lexemes : List Lexeme} {lexeme : Lexeme} {document : Document} {node : Node} {k : Nat}

/-- What kind of node a token makes, and what of the token the node shows. -/
def Lexeme.MadeInto : Lexeme → Content → Prop
  | .text source, content =>
      content.kind = .text ∧ content.attributes = [("content", .string source)]
  | .directive _ (.ok (.opening name _)), content => content.kind = .tag ∧ content.tag = some name
  | .directive _ (.ok (.selfClosing name _)), content =>
      content.kind = .tag ∧ content.tag = some name
  | .directive _ (.ok (.closing _)), content => content.kind = .error
  | .directive _ (.ok (.annotating _)), _ => False
  | .directive _ (.error _), content => content.kind = .error

/-- A document whose nodes are those that its tokens make. -/
structure Mirrors (lexemes : List Lexeme) (document : Document) : Prop where
  root_eq : document.root = 0
  root_node : ∃ node, document.tree.get? 0 = some node ∧ node.content.kind = .document ∧
    node.parent = none
  size_eq : document.tree.size = (makers lexemes).length + 1
  serial_eq : ∀ id node, document.tree.get? id = some node → node.serial = id
  node : ∀ j k lexeme, (makers lexemes)[j]? = some k → lexemes[k]? = some lexeme →
    ∃ node, document.tree.get? (j + 1) = some node ∧ lexeme.MadeInto node.content ∧
      node.parent = some (ownerAt lexemes k) ∧
      ((∀ directive name attributes,
          lexeme ≠ .directive directive (.ok (.opening name attributes))) →
        node.children = [] ∧ node.slots = [])
  /-- The nodes below the root are met in the order of their indices. -/
  walk_eq : document.walk = List.range' 1 (makers lexemes).length

/-- Neither a closing directive nor the end of the tokens changes what kind of node it is. -/
theorem Outline.HoldsAtEnd.made {content : Content}
    (h : HoldsAtEnd lexemes k lexeme content.bare) :
    content.kind = lexeme.content.kind ∧ content.tag = lexeme.content.tag ∧
      content.attributes = lexeme.content.attributes := by
  have hbare : content.bare.kind = lexeme.content.kind ∧
      content.bare.tag = lexeme.content.tag ∧
        content.bare.attributes = lexeme.content.attributes := by
    rcases h with ⟨m, closing, -, heq⟩ | ⟨-, heq⟩
    · rw [heq]
      exact ⟨rfl, rfl, rfl⟩
    · rw [heq]
      split <;> exact ⟨rfl, rfl, rfl⟩
  exact hbare

theorem Outline.madeInto_of_makesNode {opened : List (Nat × String)} {content : Content}
    (hmakes : makesNode opened lexeme = true) (hkind : content.kind = lexeme.content.kind)
    (htag : content.tag = lexeme.content.tag)
    (hattributes : content.attributes = lexeme.content.attributes) :
    lexeme.MadeInto content := by
  unfold makesNode at hmakes
  split at hmakes
  next => exact ⟨hkind, hattributes⟩
  next => exact ⟨hkind, htag⟩
  next => exact ⟨hkind, htag⟩
  next => exact hkind
  next => cases hmakes
  next => exact hkind

namespace Outlined

/-- Every node but the root is that of a token. -/
theorem exists_maker (h : Outlined lexemes document) {id : NodeId} (hid : id < document.tree.size)
    (hne : id ≠ 0) : ∃ k ∈ makers lexemes, nodeAt lexemes k = id := by
  obtain ⟨j, rfl⟩ := Nat.exists_eq_succ_of_ne_zero hne
  rw [h.size_eq] at hid
  have hj : j < (makers lexemes).length := Nat.lt_of_succ_lt_succ hid
  exact ⟨_, List.getElem_mem hj, nodeAt_of_getElem? (List.getElem?_eq_getElem hj)⟩

/-- What owns a node was made by a token that opens a tag, or is the root. -/
theorem owned_eq_nil (h : Outlined lexemes document) (hv : document.tree.Valid)
    (hlexeme : lexemes[k]? = some lexeme)
    (hleaf : ∀ directive name attributes,
      lexeme ≠ .directive directive (.ok (.opening name attributes))) :
    document.tree.ownedBy (nodeAt lexemes k) = [] := by
  refine List.eq_nil_iff_forall_not_mem.mpr fun c hc => ?_
  have hup := (hv.forest.owner_iff (nodeAt lexemes k) c).mpr hc
  have hne : c ≠ 0 := by
    rintro rfl
    obtain ⟨node, hnode, hparent, -⟩ := h.root_node
    rw [Tree.parent?_of_get? hnode, hparent] at hup
    cases hup
  obtain ⟨m, hm, rfl⟩ := h.exists_maker (Tree.lt_size_of_parent? hup) hne
  obtain ⟨made, hmade, -⟩ := mem_makers.mp hm
  obtain ⟨node, hnode, hparent, -⟩ := h.node m hm made hmade
  rw [Tree.parent?_of_get? hnode, hparent, Option.some_inj, ownerAt] at hup
  split at hup
  next tag htag =>
    have hopen := List.mem_of_mem_head? htag
    have hsame := (nodeAt_inj (mem_makers_of_take (mem_makers_of_mem_openTags hopen))).mp hup
    obtain ⟨-, directive, attributes, hopening⟩ := exists_opening_of_take hopen
    rw [hsame, hlexeme] at hopening
    exact hleaf directive tag.2 attributes (Option.some.inj hopening)
  next => exact nodeAt_ne_zero lexemes k hup.symm

theorem walk_eq (h : Outlined lexemes document) :
    document.walk = List.range' 1 (makers lexemes).length := by
  have hpreorder := h.preorder
  rw [h.size_eq, List.range_eq_range', List.range'_succ] at hpreorder
  rw [Document.walk, h.root_eq]
  refine Tree.walk_eq hpreorder ?_
  rw [List.length_range', h.size_eq]
  exact Nat.le_succ _

theorem mirrors (h : Outlined lexemes document) (hv : document.tree.Valid) :
    Mirrors lexemes document where
  root_eq := h.root_eq
  root_node := by
    obtain ⟨node, hnode, hparent, hcontent⟩ := h.root_node
    have hkind : node.content.bare.kind = .document := by
      rw [hcontent]
    exact ⟨node, hnode, hkind, hparent⟩
  size_eq := h.size_eq
  serial_eq := h.serial_eq
  node := by
    intro j k lexeme hj hlexeme
    have hk : k ∈ makers lexemes := List.mem_of_getElem? hj
    obtain ⟨node, hnode, hparent, hholds⟩ := h.node k hk lexeme hlexeme
    obtain ⟨made, hmade, hmakes⟩ := mem_makers.mp hk
    obtain rfl := Option.some.inj (hmade.symm.trans hlexeme)
    obtain ⟨hkind, htag, hattributes⟩ := hholds.made
    rw [← nodeAt_of_getElem? hj]
    refine ⟨node, hnode, madeInto_of_makesNode hmakes hkind htag hattributes, hparent, ?_⟩
    intro hleaf
    have howned := h.owned_eq_nil hv hlexeme hleaf
    rw [Tree.ownedBy_of_get? hnode, Node.owned, List.append_eq_nil_iff, List.map_eq_nil_iff]
      at howned
    exact howned.symm
  walk_eq := h.walk_eq

end Outlined

/-- The built-in grammar reads every text. -/
theorem Token.exists_ofTextWith_standard (firstLine : UInt64) (text : String) :
    ∃ tokens, Token.ofTextWith Grammar.standard firstLine text = .ok tokens :=
  Layout.exists_tokens Grammar.neverGivesUp_standard (Layout.ofText firstLine text.toList)

/-- Every list of tokens has a document that mirrors it, and so has every text. -/
theorem exists_mirrors :
    (∀ tokens : List Token, ∃ document, Document.ofTokens tokens = .ok document ∧
      Mirrors (tokens.map Token.lexeme) document) ∧
    ∀ text : String, ∃ tokens document, Token.ofText text = .ok tokens ∧
      Document.ofText text = .ok document ∧ Mirrors (tokens.map Token.lexeme) document := by
  have hmirrors : ∀ tokens : List Token, ∃ document, Document.ofTokens tokens = .ok document ∧
      Mirrors (tokens.map Token.lexeme) document := by
    intro tokens
    obtain ⟨document, hdocument, houtlined⟩ := exists_outlined tokens
    exact ⟨document, hdocument, houtlined.mirrors (Document.valid_of_ofTokens hdocument)⟩
  refine ⟨hmirrors, fun text => ?_⟩
  obtain ⟨tokens, htokens⟩ := Token.exists_ofTextWith_standard 0 text
  obtain ⟨document, hdocument, hmirror⟩ := hmirrors tokens
  refine ⟨tokens, document, htokens, ?_, hmirror⟩
  rw [Document.ofText, Document.ofTextWith, htokens]
  exact bind_eq_ok_iff.mpr ⟨tokens, rfl, by rw [hdocument]; rfl⟩

end TaggedText
