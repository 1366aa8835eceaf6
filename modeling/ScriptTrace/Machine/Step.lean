import ScriptTrace.Json.Basic

/-!
# Steps

A step is one recorded action: an identifier, the kind of action, a sentence about it and data.  The
data are a snapshot; what happens later does not show in them.

The kinds include five that belong to the vocabulary of a viewer and that no run records.

* `StepKind`, `Step`: the steps.
* `Step.text`: the line of a step.
* `Step.toJson`, `Step.ofJson?`: a step as data, and back.
-/

namespace ScriptTrace

/-- The kinds of recorded action. -/
inductive StepKind where
  | createGlobalContext
  | allocateHeapObject
  | referenceVariable
  | createExecutionContext
  | destroyExecutionContext
  | createLexicalEnvironment
  | declareVariable
  | checkVariableAccess
  | assignValue
  | logOutput
  | registerWebApi
  | addMacroTask
  | addMicroTask
  | moveTaskToStack
  | throwReferenceError
  | executeExpression
  | throwTypeError
  | throwRangeError
  deriving DecidableEq, Repr

namespace StepKind

/-- The name of a kind. -/
def name : StepKind → String
  | .createGlobalContext => "CreateGlobalContext"
  | .allocateHeapObject => "AllocateHeapObject"
  | .referenceVariable => "ReferenceVariable"
  | .createExecutionContext => "CreateExecutionContext"
  | .destroyExecutionContext => "DestroyExecutionContext"
  | .createLexicalEnvironment => "CreateLexicalEnvironment"
  | .declareVariable => "DeclareVariable"
  | .checkVariableAccess => "CheckVariableAccess"
  | .assignValue => "AssignValue"
  | .logOutput => "LogOutput"
  | .registerWebApi => "RegisterWebAPI"
  | .addMacroTask => "AddMacroTask"
  | .addMicroTask => "AddMicroTask"
  | .moveTaskToStack => "MoveTaskToStack"
  | .throwReferenceError => "ThrowReferenceError"
  | .executeExpression => "ExecuteExpression"
  | .throwTypeError => "ThrowTypeError"
  | .throwRangeError => "ThrowRangeError"

/-- All kinds. -/
def all : List StepKind :=
  [.createGlobalContext, .allocateHeapObject, .referenceVariable, .createExecutionContext,
    .destroyExecutionContext, .createLexicalEnvironment, .declareVariable, .checkVariableAccess,
    .assignValue, .logOutput, .registerWebApi, .addMacroTask, .addMicroTask, .moveTaskToStack,
    .throwReferenceError, .executeExpression, .throwTypeError, .throwRangeError]

/-- The kind with a name. -/
def ofName? (name : String) : Option StepKind :=
  all.find? fun k => k.name = name

/-- Whether a step of this kind ends a trace. -/
def isHalting : StepKind → Bool
  | .throwReferenceError | .throwTypeError | .throwRangeError => true
  | _ => false

end StepKind

/-- One recorded action. -/
structure Step where
  id : String
  kind : StepKind
  detail : String
  data : Option Json

namespace Step

/-- A field of the data of a step. -/
def field? (s : Step) (key : String) : Option Json :=
  s.data.bind fun d => d.field? key

/-- The line of a step. -/
def text (s : Step) : String :=
  "[" ++ s.id ++ "] " ++ s.kind.name ++ " - " ++ s.detail

/-- A step as data.  The data of the step are a map, so their fields are in the order of the
keys. -/
def toJson (s : Step) : Json :=
  .obj ([("id", .str s.id), ("type", .str s.kind.name), ("detail", .str s.detail)] ++
    (s.data.map fun d => ("data", d.sortKeys)).toList)

/-- A text. -/
def stringOf? : Json → Option String
  | .str s => some s
  | _ => none

/-- A kind: its name, or an object with the name as its only key and no content. -/
def kindOf? : Json → Option StepKind
  | .str s => StepKind.ofName? s
  | .obj [(s, .null)] => StepKind.ofName? s
  | _ => none

/-- The data of a step, where the null value stands for no data. -/
def dataOf : Json → Option Json
  | .null => none
  | d => some d

/-- The step that data describe: an object with the fields of a step, other fields being passed
over, or an array with the fields in order. -/
def ofJson? : Json → Option Step
  | .obj fields => do
    let id ← stringOf? (← fields.lookup "id")
    let kind ← kindOf? (← fields.lookup "type")
    let detail ← stringOf? (← fields.lookup "detail")
    return ⟨id, kind, detail, (fields.lookup "data").bind dataOf⟩
  | .arr [id, kind, detail] => do
    return ⟨← stringOf? id, ← kindOf? kind, ← stringOf? detail, none⟩
  | .arr [id, kind, detail, data] => do
    return ⟨← stringOf? id, ← kindOf? kind, ← stringOf? detail, dataOf data⟩
  | _ => none

end Step

end ScriptTrace
