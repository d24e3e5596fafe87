import FlatWasm.Command.Standard

/-!
# Program entry

Fetches the arguments and the file, and prints what the command answers.
-/

namespace FlatWasm.Command

/-- The content of a file, or why it cannot be had. -/
def fetch (file : String) : IO (Except FileError (List UInt8)) := do
  try
    let content ← IO.FS.readBinFile file
    return .ok content.toList
  catch error =>
    match error with
    | .noFileOrDirectory .. => return .error .notFound
    | error => return .error (.other (toString error))

/-- What the command answers to its arguments. -/
def answer (arguments : List String) : IO Outcome := do
  match Options.ofArguments? arguments with
  | none => return usageError
  | some options => return outcome .standard options (← fetch options.file)

end FlatWasm.Command

def main (arguments : List String) : IO UInt32 := do
  let outcome ← FlatWasm.Command.answer arguments
  IO.print outcome.output.stdout
  IO.eprint outcome.output.stderr
  return outcome.code
