import TaggedText.Document
import TaggedText.Interpolation
import TaggedText.Settings

/-!
# Resolving

Resolving copies a node with all below it into a new tree, where the attributes of each node
are interpolated with the variables of the settings. The copies stand in document order, and
they keep the numbers for diagnosis of the nodes they come from. The new tree goes on
numbering where the old one would.

The copy keeps a stack of nodes that are still to be copied, each with the copy that is to
own it. What a node owns goes onto the stack before anything else, so the depth of the
document costs nothing.
-/
namespace TaggedText.Tree

/-- Where a copy goes: to the end of the children of its owner, or into a slot of it. -/
inductive Attachment where
  | child (owner : NodeId)
  | slot (owner : NodeId) (name : String)

namespace Attachment

/-- The node that is to own the copy. -/
def owner : Attachment → NodeId
  | child owner => owner
  | slot owner _ => owner

/-- Links a copy into its owner. -/
def link (copy : NodeId) : Attachment → Array Node → Array Node
  | child owner, nodes =>
      nodes.modify owner fun node => { node with children := node.children ++ [copy] }
  | slot owner name, nodes =>
      nodes.modify owner fun node => { node with slots := node.slots.insert name copy }

end Attachment

/-- A node that is still to be copied. -/
structure Pending where
  id : NodeId
  place : Option Attachment

/-- What a node owns, to be copied for its copy. -/
def pendingOf (node : Node) (copy : NodeId) : List Pending :=
  node.slots.map (fun slot => ⟨slot.2, some (.slot copy slot.1)⟩)
    ++ node.children.map fun child => ⟨child, some (.child copy)⟩

/-- What a copy holds. -/
def resolveContent (settings : Settings) (content : Content) : Content :=
  { content with
    attributes := content.attributes.map fun entry =>
      (entry.1, Interpolation.apply settings.bindings entry.2) }

/-- The copy of a node before anything is linked into it. -/
def copyNode (settings : Settings) (node : Node) (place : Option Attachment) : Node :=
  { serial := node.serial
    content := resolveContent settings node.content
    parent := place.map Attachment.owner }

/-- Copies the pending nodes and all below them. The fuel bounds their number. -/
def copyPending (source : Tree) (settings : Settings) :
    Nat → List Pending → Array Node → Array Node
  | 0, _, copies => copies
  | _ + 1, [], copies => copies
  | fuel + 1, p :: stack, copies =>
      match source.get? p.id with
      | none => copyPending source settings fuel stack copies
      | some node =>
          let copy := copies.size
          let pushed := copies.push (copyNode settings node p.place)
          let linked :=
            match p.place with
            | some place => place.link copy pushed
            | none => pushed
          copyPending source settings fuel (pendingOf node copy ++ stack) linked

/-- The copies of a node and of all below it. -/
def copies (source : Tree) (settings : Settings) (root : NodeId) : Array Node :=
  copyPending source settings source.size [⟨root, none⟩] #[]

theorem size_link (copy : NodeId) (place : Attachment) (nodes : Array Node) :
    (place.link copy nodes).size = nodes.size := by
  cases place <;> simp [Attachment.link]

theorem size_le_copyPending (source : Tree) (settings : Settings) (fuel : Nat)
    (stack : List Pending) (nodes : Array Node) :
    nodes.size ≤ (copyPending source settings fuel stack nodes).size := by
  induction fuel generalizing stack nodes with
  | zero => simp [copyPending]
  | succ fuel ih =>
      cases stack with
      | nil => simp [copyPending]
      | cons p stack =>
          simp only [copyPending]
          split
          · exact ih _ _
          · refine Nat.le_trans ?_ (ih _ _)
            split <;> simp [size_link]

theorem copies_nonempty {source : Tree} {settings : Settings} {root : NodeId}
    (h : root < source.size) : 0 < (copies source settings root).size := by
  have hs : 0 < source.size := Nat.lt_of_le_of_lt (Nat.zero_le root) h
  obtain ⟨n, hn⟩ : ∃ n, source.size = n + 1 := ⟨source.size - 1, by omega⟩
  have hg : source.get? root = some (getElem source.nodes root h) := by
    simp [get?, Array.getElem?_eq_getElem h]
  simp only [copies, hn, copyPending, hg]
  exact Nat.lt_of_lt_of_le (by simp) (size_le_copyPending _ _ _ _ _)

/-- The document of the copies, or the error that there is no such node. -/
def resolve (tree : Tree) (root : NodeId) (settings : Settings) : Except TreeError Document :=
  if h : root < tree.size then
    .ok ⟨{ nodes := copies tree settings root, nextSerial := tree.nextSerial }, 0,
      copies_nonempty h⟩
  else .error (.unknownNode root)

end TaggedText.Tree

namespace TaggedText.Document

/-- The whole document with its attributes interpolated. -/
def resolve (document : Document) (settings : Settings) : Except TreeError Document :=
  document.tree.resolve document.root settings

end TaggedText.Document
