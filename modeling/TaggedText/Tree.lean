import TaggedText.Node

/-!
# Trees of nodes

A tree holds its nodes in the order in which they were made and never removes one. A node
has at most one owner, which has it as a child or in a slot; the parent link of a node names
its owner. The three operations that set links refuse what would give a node two owners or
make it its own ancestor, and a refused operation leaves the tree as it was.

Setting a slot that is taken frees the node that was in it.
-/
namespace TaggedText

structure Tree where
  nodes : Array Node := #[]
  /-- The number for diagnosis of the next node. -/
  nextSerial : Nat := 0

/-- Why an operation on a tree is refused. -/
inductive TreeError where
  | unknownNode (id : NodeId)
  | alreadyAttached (child parent : NodeId)
  | cycle (child parent : NodeId)
  deriving DecidableEq, Repr

namespace TreeError

def message : TreeError → String
  | unknownNode id => "node " ++ id.name ++ " does not exist in this tree"
  | alreadyAttached child parent =>
      "node " ++ child.name ++ " is already attached to " ++ parent.name
  | cycle child parent =>
      "attaching " ++ child.name ++ " under " ++ parent.name ++ " would create a cycle"

end TreeError

namespace Tree

def empty : Tree := {}

def size (tree : Tree) : Nat :=
  tree.nodes.size

def get? (tree : Tree) (id : NodeId) : Option Node :=
  tree.nodes[id]?

/-- The node with the given index, or the error that there is none. -/
def get (tree : Tree) (id : NodeId) : Except TreeError Node :=
  match tree.get? id with
  | some node => .ok node
  | none => .error (.unknownNode id)

/-- The owner of a node. -/
def parent? (tree : Tree) (id : NodeId) : Option NodeId :=
  (tree.get? id).bind Node.parent

/-- Changes one node. -/
def modify (tree : Tree) (id : NodeId) (f : Node → Node) : Tree :=
  { tree with nodes := tree.nodes.modify id f }

/-- Changes what a node holds, and none of its links. -/
def edit (tree : Tree) (id : NodeId) (f : Content → Content) : Tree :=
  tree.modify id fun node => { node with content := f node.content }

/-- Changes the owner that a node names. -/
def setParent (tree : Tree) (id : NodeId) (parent : Option NodeId) : Tree :=
  tree.modify id fun node => { node with parent := parent }

/-- Whether `target` is met on the way from a node up through its owners. The fuel bounds the
number of nodes on the way. -/
def isOnPath (tree : Tree) (target : NodeId) : Nat → NodeId → Bool
  | 0, _ => false
  | fuel + 1, id =>
      id == target ||
        match tree.parent? id with
        | some parent => isOnPath tree target fuel parent
        | none => false

/-- Whether `parent` may come to own `child`. A child that owns nothing is nobody's ancestor, so
the way up is not walked for it. -/
def checkAttach (tree : Tree) (parent child : NodeId) : Except TreeError Unit := do
  let _ ← tree.get parent
  let node ← tree.get child
  match node.parent with
  | some owner => .error (.alreadyAttached child owner)
  | none =>
      if node.children.isEmpty && node.slots.isEmpty && parent != child then .ok ()
      else if tree.isOnPath child tree.size parent then .error (.cycle child parent)
      else .ok ()

/-- Whether a new node `owner` may own the given children, none of which stands in `seen`. -/
def checkChildren (tree : Tree) (owner : NodeId) (seen : List NodeId) :
    List NodeId → Except TreeError Unit
  | [] => .ok ()
  | child :: children => do
      let node ← tree.get child
      match node.parent with
      | some parent => .error (.alreadyAttached child parent)
      | none =>
          if seen.contains child then .error (.alreadyAttached child owner)
          else checkChildren tree owner (child :: seen) children

/-- Makes a node that owns the given children. -/
def construct (tree : Tree) (content : Content) (children : List NodeId) :
    Except TreeError (NodeId × Tree) := do
  let id := tree.size
  tree.checkChildren id [] children
  let adopted := children.foldl (fun t child => t.setParent child (some id)) tree
  return (id, {
    nodes := adopted.nodes.push
      { serial := tree.nextSerial, content := content, children := children }
    nextSerial := tree.nextSerial + 1 })

/-- Makes a node the last child of another. -/
def push (tree : Tree) (parent child : NodeId) : Except TreeError Tree := do
  tree.checkAttach parent child
  return (tree.setParent child (some parent)).modify parent fun node =>
    { node with children := node.children ++ [child] }

/-- Puts a node into a slot of another, and frees the node that was in it. -/
def setSlot (tree : Tree) (parent : NodeId) (name : String) (child : NodeId) :
    Except TreeError Tree := do
  tree.checkAttach parent child
  let previous := (tree.get? parent).bind fun node => node.slots.get? name
  let attached := (tree.setParent child (some parent)).modify parent fun node =>
    { node with slots := node.slots.insert name child }
  return match previous with
    | some id => attached.setParent id none
    | none => attached

/-- The nodes on a stack and all that they own, each before what it owns. The fuel bounds their
number. -/
def walkFrom (tree : Tree) : Nat → List NodeId → List NodeId
  | 0, _ => []
  | _ + 1, [] => []
  | fuel + 1, id :: stack =>
      id :: walkFrom tree fuel (((tree.get? id).map Node.owned).getD [] ++ stack)

/-- The nodes below a node in document order, slots before children. -/
def walk (tree : Tree) (id : NodeId) : List NodeId :=
  tree.walkFrom tree.size (((tree.get? id).map Node.owned).getD [])

end Tree

end TaggedText
