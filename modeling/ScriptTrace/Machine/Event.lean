import ScriptTrace.Machine.Fault
import ScriptTrace.Machine.Scope

/-!
# Events

What a run does that is worth a step.  An event holds what its step says; the kind, the sentence and
the data of the step are functions of the event, so all wording stands here.

* `Event`: the events.
* `Event.kind`, `Event.detail`, `Event.data`: the step of an event.
-/

namespace ScriptTrace

/-- A value at the moment of an event: its text, and its snapshot. -/
structure Shown where
  text : String
  snapshot : Json

/-- An action of a run. -/
inductive Event where
  /-- The frame of the script is on the stack. -/
  | enterScript (name : String)
  /-- A declared function is in the heap. -/
  | storeFunction (name : String)
  /-- A declared function has a binding in a scope. -/
  | registerFunction (name scope : String)
  /-- A declared variable has a binding in a scope. -/
  | hoistVariable (kind : DeclarationKind) (name scope : String)
  /-- A declaration gives its variable a value. -/
  | initializeVariable (kind : DeclarationKind) (name : String) (value : Shown)
  /-- An assignment gives a variable a value. -/
  | assignVariable (name : String) (value : Shown)
  /-- An assignment gives a property a value. -/
  | assignProperty (object : ObjectId) (property : String) (value : Shown)
  /-- An object literal has an object in the heap. -/
  | createObject (object : ObjectId)
  /-- An object literal gives a property its value. -/
  | initializeProperty (object : ObjectId) (key : String) (value : Shown)
  /-- A property is read. -/
  | readProperty (object property : String)
  /-- A method is called. -/
  | callMethod (path : String)
  /-- A method call logs its first argument. -/
  | log (value : Shown)
  /-- A function is about to be called. -/
  | prepareCall (name : String)
  /-- The frame of a call is on the stack, which then has `depth` frames. -/
  | enterCall (name : String) (depth : Nat)
  /-- The scope of a call is there. -/
  | createScope (name : String) (scope outer : ScopeId)
  /-- The frame of a call is off the stack, which then has `depth` frames. -/
  | leaveCall (name : String) (depth : Nat)

namespace Event

/-- A name between single quotes. -/
def quoted (name : String) : String :=
  "'" ++ name ++ "'"

/-- The kind of the step of an event. -/
def kind : Event → StepKind
  | .enterScript _ => .createGlobalContext
  | .storeFunction _ | .createObject _ => .allocateHeapObject
  | .registerFunction _ _ => .referenceVariable
  | .hoistVariable _ _ _ => .declareVariable
  | .initializeVariable _ _ _ | .assignVariable _ _ | .assignProperty _ _ _
  | .initializeProperty _ _ _ => .assignValue
  | .readProperty _ _ | .callMethod _ | .prepareCall _ => .executeExpression
  | .log _ => .logOutput
  | .enterCall _ _ => .createExecutionContext
  | .createScope _ _ _ => .createLexicalEnvironment
  | .leaveCall _ _ => .destroyExecutionContext

/-- The sentence of the step of an event. -/
def detail : Event → String
  | .enterScript name =>
    "Create the " ++ name ++ " execution context and push it onto the call stack"
  | .storeFunction name => "Store function " ++ quoted name ++ " in the Heap"
  | .registerFunction name scope => "Register function " ++ quoted name ++ " in " ++ scope
  | .hoistVariable kind name scope =>
    "Hoist " ++ kind.word ++ " " ++ quoted name ++ " into " ++ scope ++
      (if kind.isLexical then ": uninitialized (TDZ)" else " as undefined")
  | .initializeVariable kind name value =>
    kind.word ++ " " ++ quoted name ++ " assigned: " ++ value.text
  | .assignVariable name value => "Variable " ++ quoted name ++ " assigned: " ++ value.text
  | .assignProperty object property value =>
    "Property " ++ quoted property ++ " of " ++ objectLabel object ++ " changed: " ++ value.text
  | .createObject object => "Create object literal " ++ objectLabel object ++ " in the Heap"
  | .initializeProperty object key value =>
    "Initialize property " ++ quoted key ++ " of " ++ objectLabel object ++ ": " ++ value.text
  | .readProperty object property => "Access property " ++ quoted property ++ " of " ++ object
  | .callMethod path => "Execute " ++ path ++ "()"
  | .log value => "Log output: " ++ value.text
  | .prepareCall name => "Prepare call to " ++ quoted (name ++ "()")
  | .enterCall name _ =>
    "Create execution context for " ++ quoted name ++ " and push it onto the call stack"
  | .createScope name _ _ => "Create the lexical environment of " ++ quoted name
  | .leaveCall name _ =>
    "Function " ++ quoted name ++ " finished; pop its execution context off the call stack"

/-- The data of the step of an event. -/
def data : Event → Json
  | .enterScript name | .storeFunction name | .registerFunction name _ | .prepareCall name =>
    .obj [("name", .str name)]
  | .hoistVariable kind name _ =>
    .obj [("name", .str name), ("kind", .str kind.word), ("initialized", .bool (!kind.isLexical))]
  | .initializeVariable _ name value | .assignVariable name value =>
    .obj [("name", .str name), ("value", value.snapshot)]
  | .assignProperty object property value =>
    .obj [("objectId", .str (objectLabel object)), ("property", .str property),
      ("value", value.snapshot)]
  | .createObject object => .obj [("objectId", .str (objectLabel object))]
  | .initializeProperty object key value =>
    .obj [("objectId", .str (objectLabel object)), ("key", .str key), ("value", value.snapshot)]
  | .readProperty object property => .obj [("object", .str object), ("property", .str property)]
  | .callMethod path => .obj [("callee", .str path)]
  | .log value => .obj [("value", value.snapshot), ("text", .str value.text)]
  | .enterCall name depth | .leaveCall name depth =>
    .obj [("name", .str name), ("depth", .nat depth)]
  | .createScope name scope outer =>
    .obj [("name", .str name), ("envId", .nat scope), ("outerEnvId", .nat outer)]

end Event

end ScriptTrace
