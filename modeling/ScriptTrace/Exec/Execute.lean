import ScriptTrace.Exec.Evaluate
import ScriptTrace.Exec.Hoist

/-!
# Executing statements

Declarations of variables, assignments and calls are executed; every other statement is inert, and
nothing inside it runs.

A call through a property is taken for a call of a logging method: its first argument is logged.  A
call of a name runs the body of a function in a new frame.  Arguments are not evaluated and no
parameters are bound.  The frame is taken off the stack whatever happens in the body; after a fault
no step says so.

Statements do not nest in execution, so only calls recurse.  A call has an allowance, the number of
frames that there is still room for on the stack, and the calls inside its body have one less.

* `execute`: a statement, given what a call of a name does.
* `inFrame`: a body in a frame of its own.
* `callFunction`: the call of a name.
* `executeStatement`, `executeCall`: both, with the allowance that the stack leaves.
-/

namespace ScriptTrace

/-! ## Statements -/

/-- Gives declared variables their first values, where the declaration has them. -/
def declare (kind : DeclarationKind) : List Declarator → Exec Unit
  | [] => return ()
  | ⟨_, name, some init⟩ :: rest => do
    let value ← evaluate init
    let shown ← .asks fun m => m.shown value
    record (.initializeVariable kind name.name shown)
    .perform (.bind name.name (.holding value))
    declare kind rest
  | ⟨_, _, none⟩ :: rest => declare kind rest

/-- Assigns to a variable of the running frame, wherever else the name may be bound. -/
def assignVariable (name : String) (right : Expression) : Exec Unit := do
  let value ← evaluate right
  let shown ← .asks fun m => m.shown value
  record (.assignVariable name shown)
  .perform (.bind name (.holding value))

/-- Assigns to a property of an object. -/
def assignProperty (object : Expression) (property : String) (right : Expression) : Exec Unit := do
  let value ← evaluate right
  match ← evaluate object with
  | .object id =>
    let shown ← .asks fun m => m.shown value
    record (.assignProperty id property shown)
    .perform (.setProperty id property value)
  | base => .raise (.cannotSet base property)

/-- The value of the first argument of a call. -/
def firstArgument : List Expression → Exec Value
  | [] => return .undefined
  | argument :: _ => evaluate argument

/-- Calls a method, which logs the first argument. -/
def callMethod (object : Expression) (method : String) (arguments : List Expression) :
    Exec Unit := do
  record (.callMethod (memberText object method))
  let value ← firstArgument arguments
  let shown ← .asks fun m => m.shown value
  record (.log shown)

/-- Executes an expression that stands as a statement, where `call` is what a call of a name
does. -/
def executeExpression (call : String → Exec Unit) : Expression → Exec Unit
  | .assignVariable _ target value => assignVariable target.name value
  | .assignMember _ _ base property value => assignProperty base property.name value
  | .call _ (.member _ base method) arguments => callMethod base method.name arguments
  | .call _ (.identifier name) _ => call name.name
  | _ => return ()

/-- Executes a statement, where `call` is what a call of a name does. -/
def execute (call : String → Exec Unit) : Statement → Exec Unit
  | .variables declaration => declare declaration.kind declaration.declarators
  | .expression _ e => executeExpression call e
  | _ => return ()

/-- Executes statements in order. -/
def executeAll (call : String → Exec Unit) : List Statement → Exec Unit
  | [] => return ()
  | s :: rest => do
    execute call s
    executeAll call rest

/-! ## Calls -/

/-- Runs the body of a function in the frame that has just been put on the stack. -/
def runBody (program : Program) (call : String → Exec Unit) (name : String) (id : FunctionId)
    (scope outer : ScopeId) : Exec Unit := do
  record (.createScope name scope outer)
  match program.function? id with
  | none => .raise (.notAFunction name)
  | some definition =>
    hoist .functionBody definition.body
    executeAll call definition.body

/-- Takes the running frame off the stack after its body has ended.  A step says so after a result,
but not after a fault. -/
def leaveFrame (name : String) : Except Fault Unit → Exec Unit
  | .ok _ => do
    .perform .leave
    let depth ← .asks fun m => m.stack.depth
    record (.leaveCall name depth)
  | .error fault => do
    .perform .noteFault
    .perform .leave
    .raise fault

/-- Runs a body in a frame of its own, with a new scope inside that of the running frame.  The body
is given both scopes. -/
def inFrame (name : String) (id : FunctionId) (body : ScopeId → ScopeId → Exec Unit) :
    Exec Unit := do
  let depth ← .asks fun m => m.stack.depth
  record (.enterCall name (depth + 1))
  let scope ← .asks fun m => m.scopes.size
  let outer ← .asks Machine.currentScope
  .perform (.enter name (some id))
  (body scope outer).attempt (leaveFrame name)

/-- Calls a name, with room for `allowance` more frames on the stack.  `limit` is the bound that a
fault reports. -/
def callFunction (program : Program) (limit allowance : Nat) (name : String) : Exec Unit := do
  record (.prepareCall name)
  let id ← .asksOrRaises fun m => m.callee name
  match allowance with
  | 0 => .raise (.stackOverflow limit)
  | allowance + 1 =>
    inFrame name id (runBody program (callFunction program limit allowance) name id)

/-! ## With the allowance that the stack leaves -/

/-- Calls a name, under a bound on the call stack. -/
def executeCall (program : Program) (limit : Nat) (name : String) : Exec Unit :=
  .look fun m => callFunction program limit (limit - m.stack.depth) name

/-- Executes a statement, under a bound on the call stack. -/
def executeStatement (program : Program) (limit : Nat) (s : Statement) : Exec Unit :=
  .look fun m => execute (callFunction program limit (limit - m.stack.depth)) s

/-- Executes statements in order, under a bound on the call stack. -/
def executeStatements (program : Program) (limit : Nat) : List Statement → Exec Unit
  | [] => return ()
  | s :: rest => do
    executeStatement program limit s
    executeStatements program limit rest

end ScriptTrace
