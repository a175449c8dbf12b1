import TaggedText.Attribute
import TaggedText.Grammar.Expression

/-!
# Grammars of directives

A grammar gives the body of a directive its meaning. It may refuse a body because of a
syntax error, which the document survives, or for a reason of its own, which ends the
reading of the document.

The built-in grammar knows four shapes. A slash and a name close a tag. A name opens a
tag, or stands for a whole tag if a slash ends the body; behind the name a first value
may stand without a name of its own. A body that begins with anything else is a list of
attributes, and so is one that begins with an identifier and an equals sign.
-/
namespace TaggedText

/-- Why a grammar gives no meaning. -/
inductive Refusal where
  | malformed (error : SyntaxError)
  | fatal (cause : String)
  deriving DecidableEq, Repr

/-- A grammar reads the body of a directive, without the blanks around it. -/
abbrev Grammar := Text → Except Refusal Descriptor

namespace Grammar

/-- Attributes up to a slash or the end. The fuel bounds their number; `read` holds the
attributes so far, last first. -/
def attributes (make : Constructors) :
    Nat → List Attribute → Text → Except Fault (List Attribute × Text)
  | 0, read, text => .ok (read.reverse, text)
  | fuel + 1, read, text =>
      match text.skipBlanks with
      | [] => .ok (read.reverse, [])
      | c :: cs =>
          if c = '/' then .ok (read.reverse, c :: cs)
          else if c = '#' then do
            let (name, rest) ← identifier cs
            attributes make fuel (.id name :: read) rest
          else if c = '.' then do
            let (name, rest) ← identifier cs
            attributes make fuel (.classed name :: read) rest
          else
            match identifier? (c :: cs) with
            | none => .error (.atHead (.trailingInput c) (c :: cs))
            | some (name, rest) => do
                let rest ← expectChar '=' rest.skipBlanks
                let (v, rest) ← expression make rest.skipBlanks
                attributes make fuel (.plain name v :: read) rest

/-- All attributes at the head of a text. -/
def attributeList (make : Constructors) (text : Text) : Except Fault (List Attribute × Text) :=
  attributes make (text.length + 1) [] text

/-- Whether a value without a name stands at the head of a text. -/
def startsPrimary : Text → Bool
  | [] => false
  | c :: cs =>
      if c = '/' || c = '#' || c = '.' then false
      else if isIdentifierStart c then !startsAttribute (c :: cs)
      else true

/-- The value without a name behind the name of a tag, if there is one. -/
def primary (make : Constructors) (text : Text) : Except Fault (List Attribute × Text) :=
  if startsPrimary text then do
    let (v, rest) ← expression make text
    return ([.plain "primary" v], rest)
  else .ok ([], text)

/-- Nothing but blanks. -/
def expectEnd (text : Text) : Except Fault Unit :=
  match text.skipBlanks with
  | [] => .ok ()
  | c :: cs => .error (.atHead (.trailingInput c) (c :: cs))

/-- A body that closes a tag, behind its slash. -/
def closingTag (text : Text) : Except Fault Descriptor :=
  match identifier? text.skipBlanks with
  | none => .error (.atHead .expectedTagName text.skipBlanks)
  | some (name, rest) => do
      expectEnd rest
      return .closing name

/-- A body that opens a tag or stands for a whole one, behind the name of the tag. -/
def namedTag (make : Constructors) (name : String) (text : Text) : Except Fault Descriptor := do
  let (first, rest) ← primary make text.skipBlanks
  let (others, rest) ← attributeList make rest
  if rest.head? = some '/' then
    expectEnd rest.tail
    return .selfClosing name (first ++ others)
  else
    expectEnd rest
    return .opening name (first ++ others)

/-- The descriptor of a body. -/
def descriptor (make : Constructors) (body : Text) : Except Fault Descriptor :=
  match body.skipBlanks with
  | [] => .error (.atHead .emptyTag [])
  | '/' :: cs => closingTag cs
  | text =>
      match identifier? text with
      | some (name, rest) =>
          if startsAttribute text then annotation text else namedTag make name rest
      | none => annotation text
where
  /-- A body that is a list of attributes. -/
  annotation (text : Text) : Except Fault Descriptor := do
    let (list, rest) ← attributeList make text
    expectEnd rest
    return .annotating list

/-- The descriptor of a body, with the place of an error as byte offsets. -/
def read (make : Constructors) (body : Text) : Except SyntaxError Descriptor :=
  (descriptor make body).mapError fun fault => fault.locate body

/-- The built-in grammar, which refuses a body only for its syntax. -/
def standard : Grammar := fun body =>
  (read .plain body).mapError .malformed

end Grammar

end TaggedText
