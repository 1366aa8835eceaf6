/-!
# Command-line arguments

The arguments name a script, either as a file or as text, and say what to do with it.  Every option
is given at most once.  A value stands in the argument after its option, unless that begins with a
dash, or in the same argument; a lone dash is a value like any other, and everything after two
dashes names a file.

* `Args`: what the arguments say.
* `Args.parse?`: their meaning, if they have one.
-/

namespace ScriptTrace.CommandLine

/-- What the arguments say. -/
structure Args where
  file : Option String := none
  code : Option String := none
  json : Bool := false
  step : Bool := false
  tokens : Bool := false
  config : Option String := none
  maxCallDepth : Option Nat := none
  maxSteps : Option Nat := none
  deriving DecidableEq, Repr

/-- The options without a value. -/
inductive Flag where
  | json
  | step
  | tokens
  deriving DecidableEq, Repr

/-- The options with a value. -/
inductive Valued where
  | code
  | config
  | maxCallDepth
  | maxSteps
  deriving DecidableEq, Repr

/-- One argument. -/
inductive Token where
  /-- Two dashes: only files follow. -/
  | endOfOptions
  | flag (flag : Flag)
  /-- An option with a value, which may stand in the same argument. -/
  | valued (option : Valued) (value : Option String)
  | file (name : String)
  | unknown
  deriving DecidableEq, Repr

/-- The option with a long name, and the value after an equals sign. -/
def longToken (name : List Char) (value : Option String) : Token :=
  match String.ofList name, value with
  | "json", none => .flag .json
  | "step", none => .flag .step
  | "tokens", none => .flag .tokens
  | "eval", v => .valued .code v
  | "config", v => .valued .config v
  | "max-call-depth", v => .valued .maxCallDepth v
  | "max-steps", v => .valued .maxSteps v
  | _, _ => .unknown

/-- What an argument is. -/
def Token.of (arg : String) : Token :=
  match arg.toList with
  | ['-', '-'] => .endOfOptions
  | '-' :: '-' :: cs =>
    let name := cs.takeWhile (· ≠ '=')
    match cs.dropWhile (· ≠ '=') with
    | [] => longToken name none
    | _ :: value => longToken name (some (String.ofList value))
  | ['-', 'e'] => .valued .code none
  | '-' :: 'e' :: '=' :: value => .valued .code (some (String.ofList value))
  | '-' :: 'e' :: value => .valued .code (some (String.ofList value))
  | '-' :: _ :: _ => .unknown
  | _ => .file arg

/-- Whether an argument cannot be the value of the option before it. -/
def looksLikeOption (arg : String) : Bool :=
  match arg.toList with
  | '-' :: _ :: _ => true
  | _ => false

/-- The number that a text spells in decimal, if it fits into 64 bits; a plus sign may stand before
it. -/
def count? (s : String) : Option Nat :=
  let digits := match s.toList with
    | '+' :: cs => cs
    | cs => cs
  let n := digits.foldl (fun n c => 10 * n + (c.toNat - '0'.toNat)) 0
  if !digits.isEmpty && digits.all Char.isDigit && n < Nat.pow 2 64 then some n else none

namespace Args

/-- The first setting of a value; a second one is refused. -/
def once {α : Type} (old : Option α) (value : α) : Option (Option α) :=
  if old.isSome then none else some (some value)

/-- Sets an option without a value. -/
def setFlag (a : Args) : Flag → Option Args
  | .json => if a.json then none else some { a with json := true }
  | .step => if a.step then none else some { a with step := true }
  | .tokens => if a.tokens then none else some { a with tokens := true }

/-- Sets an option with a value. -/
def setValued (a : Args) (option : Valued) (value : String) : Option Args :=
  match option with
  | .code => return { a with code := ← once a.code value }
  | .config => if value.isEmpty then none else return { a with config := ← once a.config value }
  | .maxCallDepth => do return { a with maxCallDepth := ← once a.maxCallDepth (← count? value) }
  | .maxSteps => do return { a with maxSteps := ← once a.maxSteps (← count? value) }

/-- Sets the file. -/
def setFile (a : Args) (name : String) : Option Args :=
  if name.isEmpty then none else return { a with file := ← once a.file name }

/-- The meaning of further arguments after some have been read. -/
def read? (a : Args) : List String → Option Args
  | [] => some a
  | arg :: rest =>
    match Token.of arg with
    | .endOfOptions => rest.foldlM setFile a
    | .flag flag => (a.setFlag flag).bind fun a => read? a rest
    | .valued option (some value) => (a.setValued option value).bind fun a => read? a rest
    | .valued option none =>
      match rest with
      | [] => none
      | value :: rest =>
        if looksLikeOption value then none
        else (a.setValued option value).bind fun a => read? a rest
    | .file name => (a.setFile name).bind fun a => read? a rest
    | .unknown => none

/-- Whether the arguments agree with each other: there is exactly one script, and at most one way of
showing it. -/
def isConsistent (a : Args) : Bool :=
  a.file.isSome != a.code.isSome && !(a.json && a.step) && !(a.tokens && (a.json || a.step))

/-- The meaning of arguments. -/
def parse? (args : List String) : Option Args :=
  (read? {} args).filter isConsistent

end Args

end ScriptTrace.CommandLine
