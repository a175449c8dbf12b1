import TaggedText.Tree

/-!
# Changing a tree in place

The operations on a tree once more, as programs that write to the tree they are given, one link at
a time. A program that is refused stops where it is, and what it has written by then stays written.
So each of them checks all it has to before it writes anything.
-/
namespace TaggedText

/-- The node in a slot. -/
def Tree.slot? (tree : Tree) (id : NodeId) (name : String) : Option NodeId :=
  (tree.get? id).bind fun node => node.slots.get? name

/-- A program that reads and writes a tree. A refusal takes back nothing that was written. -/
abbrev InPlace := ExceptT TreeError (StateM Tree)

namespace InPlace

variable {α : Type}

/-- The answer of a program, and the tree that it leaves. -/
def apply (program : InPlace α) (tree : Tree) : Except TreeError α × Tree :=
  StateT.run (ExceptT.run program) tree

/-- A check looks at the tree as it is at that point. -/
def check (f : Tree → Except TreeError α) : InPlace α := do
  let tree ← get
  match f tree with
  | .ok a => pure a
  | .error e => throw e

/-- Names the owner of a node. -/
def setParent (id : NodeId) (parent : Option NodeId) : InPlace Unit :=
  modify fun tree => tree.setParent id parent

/-- Uses up a number for diagnosis. -/
def allocate : InPlace Nat :=
  modifyGet fun tree => (tree.nextSerial, { tree with nextSerial := tree.nextSerial + 1 })

/-- Looks at the children one after another, and stops at the first that is refused. -/
def checkChildren (owner : NodeId) (seen : List NodeId) : List NodeId → InPlace Unit
  | [] => pure ()
  | child :: children => do
      let node ← check fun tree => tree.get child
      match node.parent with
      | some parent => throw (.alreadyAttached child parent)
      | none =>
          if seen.contains child then throw (.alreadyAttached child owner)
          else checkChildren owner (child :: seen) children

def construct (content : Content) (children : List NodeId) : InPlace NodeId := do
  let id := (← get).size
  checkChildren id [] children
  children.forM fun child => setParent child (some id)
  let serial ← allocate
  modify fun tree => { tree with
    nodes := tree.nodes.push { serial := serial, content := content, children := children } }
  return id

def push (parent child : NodeId) : InPlace Unit := do
  check fun tree => tree.checkAttach parent child
  setParent child (some parent)
  modify fun tree => tree.modify parent fun node =>
    { node with children := node.children ++ [child] }

def setSlot (parent : NodeId) (name : String) (child : NodeId) : InPlace Unit := do
  check fun tree => tree.checkAttach parent child
  setParent child (some parent)
  let previous := (← get).slot? parent name
  modify fun tree => tree.modify parent fun node =>
    { node with slots := node.slots.insert name child }
  match previous with
  | some id => setParent id none
  | none => pure ()

end InPlace

end TaggedText
