import TaggedText.Document
import TaggedText.Json
import TaggedText.Settings
import TaggedText.Token.Encoding

/-!
# Rendering

The library does not render. It says what a renderer is asked for, and it has a type for
what most renderers make: texts and elements with attributes and children.

A renderer may answer at once or later. What it does with answers that come later is its own
affair; here they are only handed on.
-/
namespace TaggedText

/-- A result, or a handle on one that is still to come. -/
inductive Deferred (α ρ : Type) where
  | ready (value : α)
  | pending (handle : ρ)
  deriving DecidableEq, Repr

namespace Deferred

variable {α β ρ : Type}

def isReady : Deferred α ρ → Bool
  | ready _ => true
  | pending _ => false

/-- The result, if it is there. -/
def value? : Deferred α ρ → Option α
  | ready value => some value
  | pending _ => none

def map (f : α → β) : Deferred α ρ → Deferred β ρ
  | ready value => ready (f value)
  | pending handle => pending handle

end Deferred

/-- What a renderer is asked about a node. -/
structure Renderer (Schema Output Handle : Type) where
  schema? : NodeView → Settings → Option Schema
  attributes : NodeView → Settings → Bindings
  children : NodeView → Settings → List Output
  node : NodeView → Settings → Deferred Output Handle

/-- A rendered element over the type of its children. -/
structure ElementOf (Child : Type) where
  name : String
  attributes : Bindings
  children : List Child
  location : Option Location
  lines : Option (List UInt64)
  id : String

/-- Rendered output. -/
inductive Output where
  | text (content : String)
  | element (element : ElementOf Output)

instance : Inhabited Output := ⟨.text ""⟩

abbrev Element := ElementOf Output

namespace Element

/-- Makes an element, with an id that no element made before it has. -/
def create (name : String) (attributes : Bindings) (children : List Output) :
    StateM Nat Element := do
  let n ← get
  set (n + 1)
  return {
    name := name
    attributes := attributes
    children := children
    location := none
    lines := none
    id := "tag-" ++ toString n }

/-- Makes an element that stands for a node, at the place of the node in its source. -/
def createFor (name : String) (view : NodeView) (attributes : Bindings) (children : List Output) :
    StateM Nat Element := do
  let element ← create name attributes children
  let lines := view.content.lines
  return { element with
    location := view.content.location
    lines := if lines.isEmpty then none else some lines }

/-- The element that is made where nothing is said about it. -/
def createDefault : StateM Nat Element :=
  create "div" [] []

end Element

namespace Output

def isElement : Output → Bool
  | text _ => false
  | element _ => true

def element? : Output → Option Element
  | text _ => none
  | element e => some e

mutual

/-- Rendered output as JSON data. What an element does not know is left out. -/
def toJson : Output → Json
  | text content => .string content
  | element ⟨name, attributes, children, location, lines, id⟩ =>
      .objectOf [
        ("name", some (.string name)),
        ("attributes", some (.object (Value.entriesJson attributes))),
        ("children", some (.array (listJson children))),
        ("location", location.map Location.toJson),
        ("lines", lines.map fun ns => .array (ns.map fun n => .nat n.toNat)),
        ("id", some (.string id))]

def listJson : List Output → List Json
  | [] => []
  | output :: outputs => output.toJson :: listJson outputs

end

end Output

end TaggedText
