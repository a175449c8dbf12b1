import TaggedText.CommandLine

/-!
# The program

Reads the files that are named on the command line, and prints what the run leaves behind.
-/
namespace TaggedText.CommandLine

/-- The number by which the system says that a directory is no file. -/
def directoryCode : UInt32 := 21

/-- The contents of a file. -/
def readFile (path : String) : IO (Except ReadError String) := do
  try
    let bytes ← IO.FS.readBinFile path
    match String.fromUTF8? bytes with
    | some content => return .ok content
    | none => return .error .notText
  catch e =>
    match e with
    | .noFileOrDirectory .. => return .error .notFound
    | .inappropriateType _ code _ =>
        return .error (if code = directoryCode then .isDirectory else .notDirectory)
    | _ => return .error (.other (toString e))

/-- Reads the files, runs the program over them, and prints the outcome. -/
def runFiles (arguments : List String) : IO UInt32 := do
  let mut contents : List (String × Except ReadError String) := []
  for path in paths arguments do
    contents := (path, ← readFile path) :: contents
  let outcome := run (fun path => (contents.lookup path).getD (.error .notFound)) arguments
  (← IO.getStdout).putStr outcome.stdout
  (← IO.getStderr).putStr outcome.stderr
  return outcome.code.toUInt32

end TaggedText.CommandLine

def main (arguments : List String) : IO UInt32 :=
  TaggedText.CommandLine.runFiles arguments
