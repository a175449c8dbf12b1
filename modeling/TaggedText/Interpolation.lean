import TaggedText.Placeholder
import TaggedText.Value.Display

/-!
# Interpolation

A placeholder whose path leads to a value is replaced by the text of that value. One whose
path leads nowhere stays as written, and its path is reported. A path begins at a name among
the bindings and goes on through maps by key and through arrays by index. Without bindings
nothing is replaced and nothing is reported.

Inside a value all strings are interpolated that can be reached through arrays and the values
of maps. A value in which nothing changes is not rebuilt, which `none` stands for.
-/
namespace TaggedText

/-- One step into a value. -/
def Value.step? : Value → PathSegment → Option Value
  | .map entries, .key name => Entries.get? name entries
  | .array items, .index n => items[n]?
  | _, _ => none

/-- The value at the end of a path that begins among bindings. -/
def Bindings.lookup? (bindings : Bindings) : List PathSegment → Option Value
  | .key first :: rest => (bindings.get? first).bind fun v => rest.foldlM Value.step? v
  | _ => none

namespace Interpolation

/-- The text that takes the place of a piece. -/
def pieceText (bindings : Bindings) : Piece → Text
  | .char c => [c]
  | .hole p =>
      match bindings.lookup? p.segments with
      | some v => v.toText
      | none => p.source

/-- The path of a piece that leads nowhere. -/
def unresolvedPath? (bindings : Bindings) : Piece → Option String
  | .char _ => none
  | .hole p => if (bindings.lookup? p.segments).isSome then none else some (String.ofList p.path)

/-- The bindings to interpolate with; none where there is nothing to find. -/
def effective? : Option Bindings → Option Bindings
  | some bindings => if bindings.isEmpty then none else some bindings
  | none => none

/-- A text with its placeholders replaced, and the paths that led nowhere. -/
def text (bindings : Option Bindings) (source : Text) : Text × List String :=
  match effective? bindings with
  | none => (source, [])
  | some bindings =>
      let pieces := Piece.ofText source
      (pieces.flatMap (pieceText bindings), pieces.filterMap (unresolvedPath? bindings))

/-- What takes the place of a string, if anything changes, and the paths that led nowhere. -/
def string (bindings : Option Bindings) (source : String) : Option String × List String :=
  let r := text bindings source.toList
  let result := String.ofList r.1
  (if result = source then none else some result, r.2)

mutual

/-- What takes the place of a value, if anything in it changes, and the paths that led nowhere. -/
def value (bindings : Option Bindings) : Value → Option Value × List String
  | .string s =>
      let r := string bindings s
      (r.1.map .string, r.2)
  | .array xs =>
      let r := items bindings xs
      (r.1.map .array, r.2)
  | .map es =>
      let r := entries bindings es
      (r.1.map .map, r.2)
  | _ => (none, [])

def items (bindings : Option Bindings) : List Value → Option (List Value) × List String
  | [] => (none, [])
  | x :: xs =>
      let r := value bindings x
      let rs := items bindings xs
      (match r.1, rs.1 with
        | none, none => none
        | first, others => some (first.getD x :: others.getD xs), r.2 ++ rs.2)

def entries (bindings : Option Bindings) :
    List (String × Value) → Option (List (String × Value)) × List String
  | [] => (none, [])
  | (key, x) :: es =>
      let r := value bindings x
      let rs := entries bindings es
      (match r.1, rs.1 with
        | none, none => none
        | first, others => some ((key, first.getD x) :: others.getD es), r.2 ++ rs.2)

end

/-- A value with its strings interpolated. -/
def apply (bindings : Option Bindings) (v : Value) : Value :=
  (value bindings v).1.getD v

end Interpolation

end TaggedText
