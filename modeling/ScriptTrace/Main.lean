import ScriptTrace.CommandLine.Response

/-!
# The program

Reads the files that the arguments name, prints the response, and keeps an interactive session going
line by line.
-/

namespace ScriptTrace.CommandLine

/-- Reads a file.  A directory can be opened but not read, so that the error about it names no
file; one about a path does. -/
def readFile (name : String) : IO (Except FileError String) := do
  try
    match String.fromUTF8? (← IO.FS.readBinFile name) with
    | some text => return .ok text
    | none => return .error .notText
  catch
    | .noFileOrDirectory .. => return .error .notFound
    | .permissionDenied .. => return .error .permissionDenied
    | .inappropriateType none .. => return .error .isDirectory
    | .inappropriateType (some _) .. => return .error .notDirectory
    | .invalidArgument .. => return .error .nameTooLong
    | error => return .error (.other (toString error))

/-- Reads the files that arguments name. -/
def readFiles (args : Args) : IO Reader := do
  let names := args.file.toList ++ args.config.toList
  let texts ← names.mapM fun name => return (name, ← readFile name)
  return fun name => (texts.lookup name).getD (.error .notFound)

/-- Keeps a session going. -/
partial def converse (input output : IO.FS.Stream) (s : Session) : IO Unit := do
  output.putStr s.prompt
  output.flush
  let line ← input.getLine
  if line.isEmpty then return
  match s.answer (.of line) with
  | (text, none) => output.putStr text
  | (text, some next) =>
    output.putStr text
    converse input output next

end ScriptTrace.CommandLine

open ScriptTrace.CommandLine in
/-- Runs the program. -/
def main (arguments : List String) : IO UInt32 := do
  let output ← IO.getStdout
  let errors ← IO.getStderr
  let read ← match Args.parse? arguments with
    | some args => readFiles args
    | none => pure fun _ => .error .notFound
  match plan arguments read with
  | .finished response =>
    output.putStr response.output
    errors.putStr response.errors
    return response.exitCode.toUInt32
  | .interactive steps =>
    output.putStr Session.help
    converse (← IO.getStdin) output (.start steps)
    return 0
