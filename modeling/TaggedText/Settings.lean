import TaggedText.Json.Reader
import TaggedText.Value.Encoding

/-!
# Settings

Settings hold the variables that interpolation looks at, and options that the library only
hands on to whoever renders the document. They are made step by step or read from a JSON
object, in which the member `variables` is an object or null and every other member is an
option. That one member must not occur twice.
-/
namespace TaggedText

structure Settings where
  /-- Missing variables are not the same as no variables: only the former is null in JSON. -/
  bindings : Option Bindings := none
  options : Bindings := []

/-- Why a text holds no settings. -/
inductive SettingsError where
  | notJson
  | notAnObject
  | variablesTwice
  | variablesNotAnObject
  deriving DecidableEq, Repr

namespace Settings

/-- Binds a variable. -/
def withVariable (name : String) (value : Value) (settings : Settings) : Settings :=
  { settings with bindings := some ((settings.bindings.getD []).insert name value) }

/-- Sets an option. -/
def withOption (name : String) (value : Value) (settings : Settings) : Settings :=
  { settings with options := settings.options.insert name value }

/-- The member of the JSON object that holds the variables. -/
def variablesKey : String := "variables"

/-- The variables that a member holds. -/
def variablesOf : Json → Except SettingsError (Option Bindings)
  | .null => .ok none
  | .object members => .ok (some (Entries.ofList (Value.membersOfJson members)))
  | _ => .error .variablesNotAnObject

/-- The settings of a JSON object. -/
def ofMembers (members : List (String × Json)) : Except SettingsError Settings := do
  let bindings ←
    match members.filter (·.1 == variablesKey) with
    | [] => .ok none
    | [member] => variablesOf member.2
    | _ => .error .variablesTwice
  return {
    bindings := bindings
    options := Entries.ofList (Value.membersOfJson (members.filter (·.1 != variablesKey))) }

/-- Reads settings from a JSON text. -/
def ofText (text : Text) : Except SettingsError Settings :=
  match Json.ofText? text with
  | none => .error .notJson
  | some (.object members) => ofMembers members
  | some _ => .error .notAnObject

end Settings

end TaggedText
