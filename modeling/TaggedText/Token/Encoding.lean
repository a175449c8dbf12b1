import TaggedText.Token
import TaggedText.Value.Encoding

/-!
# Tokens as JSON data

A token is one flat object. Its kind comes first, then what the kind knows, and last the
span and the nesting.
-/
namespace TaggedText

def Place.toJson (p : Place) : Json :=
  .object [("line", .nat p.line.toNat), ("character", .nat p.character)]

def Location.toJson (l : Location) : Json :=
  .object [("start", l.start.toJson), ("end", l.stop.toJson)]

/-- The word for a form of attributes. -/
def AttributeKind.word : AttributeKind → String
  | plain => "plain"
  | id => "id"
  | classed => "class"

def Attribute.toJson (a : Attribute) : Json :=
  .object [("name", .string a.name), ("type", .string a.kind.word), ("value", a.value.toJson)]

def DirectiveError.toJson (e : DirectiveError) : Json :=
  .object [("message", .string e.message), ("location", e.location.toJson)]

namespace Directive

/-- What every directive says of itself. -/
def members (d : Directive) : List (String × Json) :=
  [("info", .string d.source),
    ("map", .array [.nat d.lines.1.toNat, .nat d.lines.2.toNat]),
    ("position", .object [("start", .nat d.columns.1), ("end", .nat d.columns.2)]),
    ("inline", .bool d.inline)]

end Directive

namespace Descriptor

/-- The word for the kind of token that a descriptor makes. -/
def word : Descriptor → String
  | opening _ _ => "tag_open"
  | closing _ => "tag_close"
  | selfClosing _ _ => "tag"
  | annotating _ => "annotation"

/-- The name of the tag, and the attributes. -/
def members : Descriptor → List (String × Json)
  | opening name attributes => [("tag", .string name), list attributes]
  | closing name => [("tag", .string name)]
  | selfClosing name attributes => [("tag", .string name), list attributes]
  | annotating attributes => [list attributes]
where
  list (attributes : List Attribute) : String × Json :=
    ("attributes", .array (attributes.map Attribute.toJson))

end Descriptor

namespace Lexeme

/-- The word for the kind of a token. -/
def word : Lexeme → String
  | text _ => "text"
  | directive _ (.ok d) => d.word
  | directive _ (.error _) => "error"

def members : Lexeme → List (String × Json)
  | text content => [("content", .string content)]
  | directive info (.ok d) => info.members ++ d.members
  | directive info (.error e) => info.members ++ [("error", e.toJson)]

end Lexeme

namespace Token

def toJson (token : Token) : Json :=
  .object (("type", .string token.lexeme.word) :: (token.lexeme.members ++
    [("start", .nat token.start), ("end", .nat token.stop),
      ("nesting", .integer token.lexeme.nesting)]))

/-- A token list as JSON data. -/
def listJson (tokens : List Token) : Json :=
  .array (tokens.map toJson)

end Token

end TaggedText
