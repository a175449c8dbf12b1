import TaggedText.Tree

/-!
# Documents and views

A document is a tree with one of its nodes as the root. A view is a node looked at inside
its tree, from which its relatives can be reached.
-/
namespace TaggedText

/-- A tree with a root in it. -/
structure Document where
  tree : Tree
  root : NodeId
  root_lt : root < tree.size

namespace Document

/-- Pairs a tree with one of its nodes. -/
def of (tree : Tree) (root : NodeId) : Except TreeError Document :=
  if h : root < tree.size then .ok ⟨tree, root, h⟩ else .error (.unknownNode root)

/-- The nodes below the root in document order. -/
def walk (document : Document) : List NodeId :=
  document.tree.walk document.root

end Document

/-- A node inside its tree. -/
structure NodeView where
  tree : Tree
  id : NodeId
  id_lt : id < tree.size

/-- The view of a node. -/
def Tree.view? (tree : Tree) (id : NodeId) : Option NodeView :=
  if h : id < tree.size then some ⟨tree, id, h⟩ else none

/-- The view of the root. -/
def Document.view (document : Document) : NodeView :=
  ⟨document.tree, document.root, document.root_lt⟩

namespace NodeView

def node (view : NodeView) : Node :=
  getElem view.tree.nodes view.id view.id_lt

def content (view : NodeView) : Content :=
  view.node.content

/-- The owner. -/
def parent? (view : NodeView) : Option NodeView :=
  view.node.parent.bind view.tree.view?

def children (view : NodeView) : List NodeView :=
  view.node.children.filterMap view.tree.view?

/-- The node in a slot. -/
def slot? (view : NodeView) (name : String) : Option NodeView :=
  (view.node.slots.get? name).bind view.tree.view?

/-- The nodes below, in document order. -/
def walk (view : NodeView) : List NodeView :=
  (view.tree.walk view.id).filterMap view.tree.view?

end NodeView

end TaggedText
