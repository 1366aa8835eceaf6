import ScriptTrace.Config.Basic
import ScriptTrace.Machine.Heap
import ScriptTrace.Machine.Stack
import ScriptTrace.Machine.Recorder
import ScriptTrace.Machine.Event

/-!
# The state of a run

Everything that a run changes: the recorder, the heap, the scopes, the call stack, and the call
stack as it was where a fault surfaced.

* `Machine`: the state.
* `Machine.lookup`: a variable, read through the scopes around the running frame.
* `Machine.callee`: the function that a name calls.
* `Effect`, `Effect.apply`: the changes that a run is made of.
-/

namespace ScriptTrace

/-- The state of a run. -/
structure Machine where
  recorder : Recorder
  heap : Heap
  scopes : Scopes
  stack : Stack
  faultSite : Option (List String)

namespace Machine

/-- The state before the first step: the frame of the script on the stack, and its scope. -/
def initial (c : Config) : Machine where
  recorder := { limit := c.maxSteps }
  heap := {}
  scopes := .initial c.globalFrameName
  stack := ⟨[⟨c.globalFrameName, none, globalScope⟩]⟩
  faultSite := none

/-- The scope of the running frame. -/
def currentScope (m : Machine) : ScopeId :=
  (m.stack.running?.map Frame.scope).getD globalScope

/-- How the steps of a trace name a scope. -/
def scopeLabel (m : Machine) (id : ScopeId) : String :=
  match m.scopes.get? id with
  | some scope =>
    if id = globalScope then "the " ++ scope.name ++ " environment"
    else "the environment of '" ++ scope.name ++ "'"
  | none => "environment #" ++ toString id

/-- The value of a variable, read through the scopes around the running frame. -/
def lookup (m : Machine) (name : String) : Except Fault Value :=
  match m.scopes.resolve? m.currentScope name with
  | none => .error (.notDefined name)
  | some (_, binding) =>
    match binding.read? with
    | none => .error (.uninitialized name)
    | some value => .ok value

/-- The function that a name calls: the function stored under the name, or else the function that
a variable of the name holds. -/
def callee (m : Machine) (name : String) : Except Fault FunctionId :=
  match m.heap.function? name with
  | some id => .ok id
  | none =>
    match m.lookup name with
    | .error fault => .error fault
    | .ok (.function target) =>
      match m.heap.function? target with
      | some id => .ok id
      | none => .error (.notAFunction name)
    | .ok _ => .error (.notAFunction name)

/-- A value as an event shows it. -/
def shown (m : Machine) (value : Value) : Shown :=
  ⟨value.text, m.heap.snapshot value⟩

/-- The call stack where a fault surfaced, or the one of now if no frame has been left since. -/
def siteOfFault (m : Machine) : List String :=
  m.faultSite.getD m.stack.names

end Machine

/-- A change of the state. -/
inductive Effect where
  /-- The step of an event goes to the end of the trace. -/
  | record (event : Event)
  /-- A function is stored under a name. -/
  | storeFunction (name : String) (id : FunctionId)
  /-- A name is bound in the scope of the running frame. -/
  | bind (name : String) (binding : Binding)
  /-- A new object is in the heap. -/
  | allocate
  /-- A property is written. -/
  | setProperty (id : ObjectId) (key : String) (value : Value)
  /-- A frame with a new scope, inside that of the running frame, is put on the stack. -/
  | enter (name : String) (function : Option FunctionId)
  /-- The running frame is taken off the stack. -/
  | leave
  /-- The call stack is kept as the place of a fault, unless one is kept already. -/
  | noteFault

/-- The state after a change. -/
def Effect.apply (m : Machine) : Effect → Machine
  | .record event =>
    { m with recorder := m.recorder.append event.kind event.detail (some event.data) }
  | .storeFunction name id => { m with heap := m.heap.storeFunction name id }
  | .bind name binding => { m with scopes := m.scopes.put m.currentScope name binding }
  | .allocate => { m with heap := m.heap.allocate }
  | .setProperty id key value => { m with heap := m.heap.setProperty id key value }
  | .enter name function =>
    { m with
      scopes := m.scopes.add name m.currentScope
      stack := m.stack.push ⟨name, function, m.scopes.size⟩ }
  | .leave => { m with stack := m.stack.pop }
  | .noteFault => { m with faultSite := some m.siteOfFault }

end ScriptTrace
