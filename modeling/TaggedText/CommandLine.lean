import TaggedText.Document.Draft
import TaggedText.Json.Printer
import TaggedText.Token.Encoding

/-!
# The command line

Two commands look at files one after another. `tokens` prints the tokens of each file as
indented JSON. `check` reports every problem of each file at its place, or that there is
none. A file that cannot be read is reported and the others are still looked at. The code is
0 if every file was read without a problem, 1 if not, and 2 if there was nothing to do.

All that the outside has to bring is a way to read a file.
-/
namespace TaggedText.CommandLine

/-- Why a file cannot be read. -/
inductive ReadError where
  | notFound
  | isDirectory
  | notDirectory
  | notText
  | other (message : String)
  deriving DecidableEq, Repr

def ReadError.message : ReadError → String
  | notFound => "No such file or directory (os error 2)"
  | isDirectory => "Is a directory (os error 21)"
  | notDirectory => "Not a directory (os error 20)"
  | notText => "stream did not contain valid UTF-8"
  | other message => message

/-- What a run of the program leaves behind. -/
structure Outcome where
  code : Nat
  stdout : String := ""
  stderr : String := ""
  deriving DecidableEq, Repr

inductive Command where
  | tokens
  | check
  deriving DecidableEq, Repr

def command? : String → Option Command
  | "tokens" => some .tokens
  | "check" => some .check
  | _ => none

def unlines (lines : List String) : String :=
  String.join (lines.map (· ++ "\n"))

def usage : String := unlines [
  "Usage: doctags <command> [files...]",
  "",
  "Commands:",
  "  tokens  Print the token stream of each file as JSON",
  "  check   Report directive errors and unbalanced tags",
  "",
  "Examples:",
  "  doctags tokens page.md",
  "  RUST_LOG=debug doctags check docs/*.md"]

/-- What is printed about one file, and whether all is well with it. -/
structure FileReport where
  ok : Bool
  stdout : String := ""
  stderr : String := ""
  deriving DecidableEq, Repr

namespace FileReport

/-- A file about which there is nothing but an error to print. -/
def failure (path message : String) : FileReport :=
  { ok := false, stderr := unlines [path ++ ": " ++ message] }

/-- The tokens of a file. -/
def ofTokens (path content : String) : FileReport :=
  match Token.ofText content with
  | .error e => failure path e.message
  | .ok tokens => { ok := true, stdout := unlines [String.ofList (Token.listJson tokens).pretty] }

/-- The line for one problem. -/
def problemLine (path : String) (problem : Problem) : String :=
  match problem.location with
  | some l =>
      path ++ ":" ++ toString l.start.line ++ ":" ++ toString l.start.character ++ ": "
        ++ problem.message
  | none => path ++ ": " ++ problem.message

/-- The problems of a document below its root, in document order. -/
def problems (document : Document) : List Problem :=
  document.view.walk.flatMap fun view => view.content.problems

/-- The problems of a file. -/
def ofCheck (path content : String) : FileReport :=
  match Document.ofText content with
  | .error e => failure path e.message
  | .ok document =>
      match problems document with
      | [] =>
          { ok := true
            stderr :=
              unlines [path ++ ": valid (" ++ toString document.tree.size ++ " node(s))"] }
      | found => { ok := false, stderr := unlines (found.map (problemLine path)) }

/-- What a command prints about a file. -/
def ofFile (command : Command) (path : String) : Except ReadError String → FileReport
  | .error e => failure path e.message
  | .ok content =>
      match command with
      | .tokens => ofTokens path content
      | .check => ofCheck path content

end FileReport

/-- The outcome of a command over the reports of its files. -/
def summarize (reports : List FileReport) : Outcome :=
  { code := if reports.all FileReport.ok then 0 else 1
    stdout := String.join (reports.map FileReport.stdout)
    stderr := String.join (reports.map FileReport.stderr) }

/-- The paths that a program called with the given arguments is going to read. -/
def paths : List String → List String
  | name :: files => if (command? name).isSome then files else []
  | [] => []

/-- Runs the program. -/
def run (read : String → Except ReadError String) : List String → Outcome
  | [] => { code := 2, stderr := usage }
  | name :: files =>
      if name = "--help" ∨ name = "-h" then { code := 2, stderr := usage }
      else
        match command? name with
        | none => { code := 2, stderr := unlines ["Unknown command: " ++ name] }
        | some command =>
            if files.isEmpty then { code := 2, stderr := unlines ["Error: no files specified"] }
            else summarize (files.map fun path => FileReport.ofFile command path (read path))

end TaggedText.CommandLine
