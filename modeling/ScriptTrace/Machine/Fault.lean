import ScriptTrace.Machine.Step
import ScriptTrace.Machine.Value

/-!
# Faults

What stops a run.  A fault is its cause; its kind, its wording and the step that reports it are
functions of the cause.

* `Fault`: the causes.
* `Fault.text`: what is reported.
* `Fault.haltingKind`: the kind of the step that reports it.
-/

namespace ScriptTrace

/-- The kinds of fault that the language has names for. -/
inductive FaultKind where
  | referenceError
  | typeError
  | rangeError
  deriving DecidableEq, Repr

/-- The name of a kind of fault. -/
def FaultKind.name : FaultKind → String
  | .referenceError => "ReferenceError"
  | .typeError => "TypeError"
  | .rangeError => "RangeError"

/-- Why a run stops. -/
inductive Fault where
  /-- A name that no scope binds. -/
  | notDefined (name : String)
  /-- A variable that is read before its declaration has run. -/
  | uninitialized (name : String)
  /-- Any other fault of reference, in words. -/
  | reference (message : String)
  /-- A call of something that is no function. -/
  | notAFunction (name : String)
  /-- A write to a property of something that is no object. -/
  | cannotSet (base : Value) (property : String)
  /-- Any other fault of type, in words. -/
  | type (message : String)
  /-- A call with `limit` frames on the stack. -/
  | stackOverflow (limit : Nat)
  /-- A step beyond the first `limit` ones. -/
  | stepLimit (limit : Nat)
  deriving DecidableEq, Repr

namespace Fault

/-- The kind of a fault. -/
def kind : Fault → FaultKind
  | .notDefined _ | .uninitialized _ | .reference _ => .referenceError
  | .notAFunction _ | .cannotSet _ _ | .type _ => .typeError
  | .stackOverflow _ | .stepLimit _ => .rangeError

/-- How a write to a property names what is no object: `undefined` and `null` by themselves, and
any other value by its type. -/
def baseText : Value → String
  | .undefined => "undefined"
  | .null => "null"
  | other => "a " ++ other.typeName ++ " value"

/-- What happened, in words. -/
def message : Fault → String
  | .notDefined name => "'" ++ name ++ "' is not defined"
  | .uninitialized name => "Cannot access '" ++ name ++ "' before initialization"
  | .notAFunction name => "'" ++ name ++ "' is not a function"
  | .cannotSet base property =>
    "Cannot set properties of " ++ baseText base ++ " (setting '" ++ property ++ "')"
  | .reference message | .type message => message
  | .stackOverflow limit => "Maximum call stack size exceeded (" ++ toString limit ++ " frames)"
  | .stepLimit limit => "Step limit of " ++ toString limit ++ " exceeded"

/-- The report of a fault. -/
def text (f : Fault) : String :=
  f.kind.name ++ ": " ++ f.message

/-- The kind of the step that reports a fault. -/
def haltingKind (f : Fault) : StepKind :=
  match f.kind with
  | .referenceError => .throwReferenceError
  | .typeError => .throwTypeError
  | .rangeError => .throwRangeError

/-- A fault as data.  The two limits are told apart by names of their own. -/
def toJson (f : Fault) : Json :=
  match f with
  | .stackOverflow limit =>
    .obj [("kind", .str "StackOverflow"), ("message", .obj [("limit", .nat limit)])]
  | .stepLimit limit =>
    .obj [("kind", .str "StepLimitExceeded"), ("message", .obj [("limit", .nat limit)])]
  | _ => .obj [("kind", .str f.kind.name), ("message", .str f.message)]

end Fault

end ScriptTrace
