import TaggedText.Attribute
import TaggedText.Location

/-!
# Nodes of a document

What a node holds is kept apart from how it hangs in its tree. The first may be edited at
will; the links are kept by the tree alone. Nodes are named by their index in the tree, and
besides each bears a number for diagnosis that a copy keeps.
-/
namespace TaggedText

/-- Index of a node in its tree. -/
abbrev NodeId := Nat

/-- What a message calls a node. -/
def NodeId.name (id : NodeId) : String :=
  "#" ++ toString id

inductive NodeKind where
  | document
  | node
  | tag
  | text
  | error
  | other (name : String)
  deriving DecidableEq, Repr

def NodeKind.name : NodeKind → String
  | document => "document"
  | node => "node"
  | tag => "tag"
  | text => "text"
  | error => "error"
  | other name => name

/-- How bad a problem is. -/
inductive Severity where
  | debug
  | info
  | warning
  | error
  | critical
  deriving DecidableEq, Repr

/-- Something wrong with a node. -/
structure Problem where
  code : String
  severity : Severity
  message : String
  location : Option Location
  deriving DecidableEq, Repr

/-- What a node holds. -/
structure Content where
  kind : NodeKind := .node
  tag : Option String := none
  attributes : Bindings := []
  annotations : List Attribute := []
  problems : List Problem := []
  /-- The lines of the directives that made the node, two for each. -/
  lines : List UInt64 := []
  inline : Bool := false
  location : Option Location := none
  deriving Inhabited

structure Node where
  /-- The number for diagnosis. -/
  serial : Nat
  content : Content
  children : List NodeId := []
  /-- Further nodes that are owned under names. -/
  slots : Entries NodeId := []
  parent : Option NodeId := none
  deriving Inhabited

namespace Node

/-- The name of a node in logs and tools. -/
def label (node : Node) : String :=
  "node-" ++ toString node.serial

/-- The nodes owned by a node: slots in the order in which they were first set, then children. -/
def owned (node : Node) : List NodeId :=
  node.slots.map Prod.snd ++ node.children

end Node

end TaggedText
