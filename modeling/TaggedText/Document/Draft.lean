import TaggedText.Document
import TaggedText.Token

/-!
# Documents from tokens

A draft is a document that grows token by token. It remembers the tags that were opened and
not yet closed; whatever comes next goes below the innermost of them, or below the root.

Nothing that is wrong with the tokens stops the draft. A closing directive that does not
close the innermost open tag, and a directive with a syntax error, become nodes of their own
that bear the problem. A tag that is never closed bears a problem itself. An annotation goes
to the last child of the place it stands in, or to that place if it has no child.
-/
namespace TaggedText

/-- The name under which ids of classes are gathered in a map. -/
def classKey : String := "class"

/-- Adds an attribute to those of a tag. A class becomes an entry of the map under `class`, which
is made for the first; where that name holds something else, the class has no place to go. -/
def addAttribute (attributes : Bindings) (a : Attribute) : Bindings :=
  match a.kind with
  | .plain => attributes.insert a.name a.value
  | .id => attributes.insert a.name a.value
  | .classed =>
      let classes := (attributes.get? classKey).getD (.map [])
      match classes, a.value with
      | .map entries, .string name =>
          attributes.insert classKey (.map (Entries.insert name (.bool true) entries))
      | _, _ => attributes.insert classKey classes

/-- The attributes of a tag by name. -/
def attributeBindings (list : List Attribute) : Bindings :=
  list.foldl addAttribute []

namespace Problem

/-- A tag that is never closed. -/
def missingClosing (name : String) (location : Option Location) : Problem :=
  ⟨"missing-closing", .critical, "Node '" ++ name ++ "' is missing closing", location⟩

/-- A closing directive that closes nothing. -/
def unexpectedClosing (name : String) (location : Location) : Problem :=
  ⟨"unexpected-closing", .critical, "Unexpected closing tag '" ++ name ++ "'", some location⟩

/-- A directive that means nothing. -/
def syntaxError (e : DirectiveError) : Problem :=
  ⟨"syntax-error", .critical, e.message, some e.location⟩

end Problem

namespace Directive

/-- What a node holds that a directive made. -/
def content (directive : Directive) (kind : NodeKind) : Content :=
  { kind := kind
    lines := [directive.lines.1, directive.lines.2]
    inline := directive.inline
    location := some directive.location }

end Directive

namespace Content

/-- A text run. -/
def ofText (content : String) : Content :=
  { kind := .text, attributes := [("content", .string content)], inline := true }

/-- A tag. -/
def ofTag (directive : Directive) (name : String) (attributes : List Attribute) : Content :=
  { directive.content .tag with
    tag := some name
    attributes := attributeBindings attributes }

/-- A directive with a problem. -/
def ofProblem (directive : Directive) (problem : Problem) : Content :=
  { directive.content .error with problems := [problem] }

/-- What an open tag holds once a directive closes it: the lines of that directive too, and a
location that ends where the directive does. -/
def closedBy (directive : Directive) (content : Content) : Content :=
  { content with
    lines := content.lines ++ [directive.lines.1, directive.lines.2]
    location := content.location.map fun l => { l with stop := directive.location.stop } }

def annotate (annotations : List Attribute) (content : Content) : Content :=
  { content with annotations := content.annotations ++ annotations }

/-- Marks a tag as never closed. -/
def leftOpen (content : Content) : Content :=
  { content with
    problems :=
      content.problems ++ [.missingClosing (content.tag.getD "") content.location] }

end Content

/-- A document under construction. -/
structure Draft where
  tree : Tree
  root : NodeId
  /-- The open tags, innermost first. -/
  opened : List NodeId

namespace Draft

/-- A document with nothing in it. -/
def start : Except TreeError Draft := do
  let (root, tree) ← Tree.empty.construct { kind := .document } []
  return ⟨tree, root, []⟩

/-- Where the next node goes. -/
def current (draft : Draft) : NodeId :=
  draft.opened.head?.getD draft.root

/-- Adds a node at the current place. -/
def add (draft : Draft) (content : Content) : Except TreeError (NodeId × Draft) := do
  let (id, tree) ← draft.tree.construct content []
  let tree ← tree.push draft.current id
  return (id, { draft with tree := tree })

/-- Adds a node in which nothing is going to stand. -/
def addLeaf (draft : Draft) (content : Content) : Except TreeError Draft := do
  let (_, draft) ← draft.add content
  return draft

/-- Adds a tag and opens it. -/
def openTag (draft : Draft) (content : Content) : Except TreeError Draft := do
  let (id, draft) ← draft.add content
  return { draft with opened := id :: draft.opened }

/-- The innermost open tag, if it has the given name. -/
def matching? (draft : Draft) (name : String) : Option NodeId :=
  draft.opened.head?.filter fun id =>
    ((draft.tree.get? id).bind fun node => node.content.tag) == some name

/-- Closes the innermost open tag, or notes that the directive closes nothing. -/
def closeTag (draft : Draft) (directive : Directive) (name : String) : Except TreeError Draft :=
  match draft.matching? name with
  | some id =>
      .ok { draft with
        tree := draft.tree.edit id (Content.closedBy directive)
        opened := draft.opened.tail }
  | none =>
      draft.addLeaf (.ofProblem directive (.unexpectedClosing name directive.location))

/-- The node that an annotation at the current place is about. -/
def annotated (draft : Draft) : NodeId :=
  (((draft.tree.get? draft.current).bind fun node => node.children.getLast?)).getD draft.current

/-- Takes one more token. -/
def take (draft : Draft) : Lexeme → Except TreeError Draft
  | .text content => if content = "" then .ok draft else draft.addLeaf (.ofText content)
  | .directive directive (.ok (.opening name attributes)) =>
      draft.openTag (.ofTag directive name attributes)
  | .directive directive (.ok (.selfClosing name attributes)) =>
      draft.addLeaf (.ofTag directive name attributes)
  | .directive directive (.ok (.closing name)) => draft.closeTag directive name
  | .directive _ (.ok (.annotating attributes)) =>
      .ok { draft with tree := draft.tree.edit draft.annotated (Content.annotate attributes) }
  | .directive directive (.error e) => draft.addLeaf (.ofProblem directive (.syntaxError e))

/-- Marks the tags that are still open. -/
def finish (draft : Draft) : Except TreeError Document :=
  let tree := draft.opened.foldr (fun id tree => tree.edit id Content.leftOpen) draft.tree
  Document.of tree draft.root

end Draft

namespace Document

/-- The document of a list of tokens. -/
def ofTokens (tokens : List Token) : Except TreeError Document := do
  let draft ← tokens.foldlM (fun draft token => Draft.take draft token.lexeme) (← Draft.start)
  draft.finish

end Document

/-- Why a text gives no document. -/
inductive DocumentError where
  | lex (error : LexError)
  | tree (error : TreeError)
  deriving DecidableEq, Repr

namespace DocumentError

def message : DocumentError → String
  | lex e => e.message
  | tree e => e.message

end DocumentError

namespace Document

/-- The document of a text as a grammar reads it. -/
def ofTextWith (grammar : Grammar) (firstLine : UInt64) (text : String) :
    Except DocumentError Document := do
  let tokens ← (Token.ofTextWith grammar firstLine text).mapError .lex
  (ofTokens tokens).mapError .tree

/-- The document of a text as the built-in grammar reads it. -/
def ofText (text : String) : Except DocumentError Document :=
  ofTextWith Grammar.standard 0 text

end Document

end TaggedText
