import TaggedText.Value

/-!
# Attributes and descriptors

A descriptor is the meaning of one directive: a tag is opened, closed, or stands alone,
or attributes annotate what stands before. The form in which an attribute was written is
kept, because a class is not a plain attribute of the name `class`.
-/
namespace TaggedText

/-- The form of an attribute: a name with a value, an id after a hash, or a class after a dot. -/
inductive AttributeKind where
  | plain
  | id
  | classed
  deriving DecidableEq, Repr

structure Attribute where
  name : String
  kind : AttributeKind
  value : Value
  deriving Repr

namespace Attribute

def plain (name : String) (value : Value) : Attribute :=
  ⟨name, .plain, value⟩

def id (name : String) : Attribute :=
  ⟨"id", .id, .string name⟩

def classed (name : String) : Attribute :=
  ⟨"class", .classed, .string name⟩

end Attribute

/-- What a directive does. -/
inductive Descriptor where
  | opening (name : String) (attributes : List Attribute)
  | closing (name : String)
  | selfClosing (name : String) (attributes : List Attribute)
  | annotating (attributes : List Attribute)
  deriving Repr

namespace Descriptor

/-- Change of the nesting depth. -/
def nesting : Descriptor → Int
  | opening _ _ => 1
  | closing _ => -1
  | selfClosing _ _ => 0
  | annotating _ => 0

end Descriptor

end TaggedText
