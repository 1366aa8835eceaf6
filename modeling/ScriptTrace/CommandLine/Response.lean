import ScriptTrace.CommandLine.Args
import ScriptTrace.CommandLine.Session
import ScriptTrace.Config.SettingsFile
import ScriptTrace.FileTree
import ScriptTrace.Json.Pretty
import ScriptTrace.Trace

/-!
# The command line

What the program prints and how it ends, as a function of its arguments, of the files that it can
read and of the lines that are typed.

The script is read first.  A dump of its matched tree needs nothing else; otherwise the settings are
read, changed by the options, validated once more, and the script is run.

* `CommandLine.Response`: output and exit code.
* `CommandLine.plan`: what the arguments lead to, before any line is typed.
* `CommandLine.respond`: the whole response.
-/

namespace ScriptTrace.CommandLine

/-- Output and exit code. -/
structure Response where
  exitCode : Nat
  output : String
  errors : String
  deriving DecidableEq, Repr

namespace Response

/-- The response of a program that could not do what was asked. -/
def failure (message : String) : Response :=
  ⟨1, "", "Error: " ++ message ++ "\n"⟩

/-- The response to arguments that make no sense. -/
def usage : Response :=
  ⟨2, "", "usage: FILE | -e CODE, [--json | --step | --tokens] [--config FILE]\n" ++
    "       [--max-call-depth N] [--max-steps N]\n"⟩

end Response

/-- Why the program could not do what was asked. -/
inductive Failure where
  | unreadableScript (name : String) (error : FileError)
  | unreadableSettings (error : FileError)
  | refusedSettings (error : ConfigError)
  | refusedScript (source : String) (error : ParseError)

/-- What is said about a failure.  A failure with a cause of its own is told together with the
cause, which repeats its words. -/
def Failure.message : Failure → String
  | .unreadableScript name error => "failed to read '" ++ name ++ "': " ++ error.message
  | .unreadableSettings error =>
    "failed to read config file: " ++ error.message ++ ": " ++ error.message
  | .refusedSettings error => error.message
  | .refusedScript source error =>
    "parse error: " ++ error.message source ++ ": " ++ error.message source

/-- How files are read. -/
abbrev Reader := String → Except FileError String

/-- The text of the script. -/
def script (args : Args) (read : Reader) : Except Failure String :=
  match args.code, args.file with
  | some code, _ => .ok code
  | none, some name => (read name).mapError (.unreadableScript name)
  | none, none => .ok ""

/-- The settings: those of the settings file, or the default ones, changed by the options. -/
def settings (args : Args) (read : Reader) : Except Failure Config := do
  let base ← match args.config with
    | none => pure ({} : Config)
    | some name =>
      let text ← (read name).mapError .unreadableSettings
      (Config.ofSettings text).mapError .refusedSettings
  let c := { base with
    maxCallDepth := args.maxCallDepth.getD base.maxCallDepth
    maxSteps := args.maxSteps.or base.maxSteps }
  c.validate.mapError fun reason => .refusedSettings (.invalid reason)
  return c

/-- The response that lists a trace: a line for every step, and the fault. -/
def listing (t : Trace) : Response :=
  ⟨0, String.join (t.steps.toList.map fun s => s.text ++ "\n"),
    match t.fault with
    | some fault => "Uncaught " ++ fault.text ++ "\n"
    | none => ""⟩

/-- What arguments lead to, before any line is typed. -/
inductive Plan where
  | finished (response : Response)
  | interactive (steps : Array Step)

/-- What arguments with a meaning lead to. -/
def planFor (args : Args) (read : Reader) : Except Failure Plan := do
  let source ← script args read
  if args.tokens then
    let tree ← (treeDump source).mapError (.refusedScript source)
    return .finished ⟨0, tree ++ "\n", ""⟩
  let config ← settings args read
  let trace ← (runSource config source).mapError (.refusedScript source)
  if args.json then return .finished ⟨0, trace.toJson.pretty ++ "\n", ""⟩
  else if args.step then return .interactive trace.steps
  else return .finished (listing trace)

/-- What arguments lead to. -/
def plan (arguments : List String) (read : Reader) : Plan :=
  match Args.parse? arguments with
  | none => .finished .usage
  | some args =>
    match planFor args read with
    | .ok plan => plan
    | .error failure => .finished (.failure failure.message)

/-- The lines of a typed text, without the line feeds that end them; `line` is the beginning of the
first one, its last character first.  A last line without a line feed counts if it is not empty. -/
def typedLines (line : List Char) : List Char → List String
  | [] => if line.isEmpty then [] else [String.ofList line.reverse]
  | c :: rest =>
    if c = '\n' then String.ofList line.reverse :: typedLines [] rest
    else typedLines (c :: line) rest

/-- The whole response, given the files and the text that is typed. -/
def respond (arguments : List String) (read : Reader) (typed : String) : Response :=
  match plan arguments read with
  | .finished response => response
  | .interactive steps => ⟨0, Session.transcript steps (typedLines [] typed.toList), ""⟩

end ScriptTrace.CommandLine
