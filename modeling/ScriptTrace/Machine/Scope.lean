import ScriptTrace.Machine.Value
import ScriptTrace.Table

/-!
# Scopes

A scope is a record of bindings, named after the frame that it belongs to, with a link to the scope
around it.  All scopes of a run stand in one array; links are indices, and no scope is ever removed.

A name is resolved by walking the links outwards.  The walk visits at most as many scopes as there
are, since a longer one would go in circles.

* `Binding`: a variable, which may still lack a value.
* `Scope`: a record of bindings.
* `Scopes`: all scopes, with `Scopes.resolve?`.
-/

namespace ScriptTrace

/-- The index of a scope. -/
abbrev ScopeId := Nat

/-- The index of the outermost scope. -/
def globalScope : ScopeId := 0

/-- A variable.  One that is not initialized cannot be read. -/
structure Binding where
  initialized : Bool
  value : Option Value
  deriving DecidableEq, Repr

namespace Binding

/-- A variable whose declaration has not run. -/
def uninitialized : Binding := ⟨false, none⟩

/-- A variable with a value. -/
def holding (value : Value) : Binding := ⟨true, some value⟩

/-- The value that a reader sees, if the variable can be read. -/
def read? (b : Binding) : Option Value :=
  if b.initialized then some (b.value.getD .undefined) else none

end Binding

/-- A record of bindings. -/
structure Scope where
  name : String
  outer : Option ScopeId
  bindings : Table Binding := .empty

/-- All scopes of a run. -/
structure Scopes where
  records : Array Scope

namespace Scopes

/-- The outermost scope alone. -/
def initial (name : String) : Scopes :=
  ⟨#[{ name, outer := none }]⟩

/-- The number of scopes. -/
def size (s : Scopes) : Nat :=
  s.records.size

/-- The scope with an index. -/
def get? (s : Scopes) (id : ScopeId) : Option Scope :=
  s.records[id]?

/-- Puts a scope without bindings at the end of the array; its index is the number of scopes
before. -/
def add (s : Scopes) (name : String) (outer : ScopeId) : Scopes :=
  ⟨s.records.push { name, outer := some outer }⟩

/-- Binds a name in a scope. -/
def put (s : Scopes) (id : ScopeId) (name : String) (binding : Binding) : Scopes :=
  ⟨s.records.modify id fun r => { r with bindings := r.bindings.put name binding }⟩

/-- The binding of a name that a scope holds itself. -/
def binding? (s : Scopes) (name : String) (id : ScopeId) : Option Binding :=
  (s.get? id).bind fun scope => scope.bindings.get? name

theorem get?_add (s : Scopes) (name : String) (outer id : ScopeId) :
    (s.add name outer).get? id =
      if id = s.size then some { name, outer := some outer } else s.get? id :=
  Array.getElem?_push

theorem get?_put (s : Scopes) (id : ScopeId) (name : String) (binding : Binding) (other : ScopeId) :
    (s.put id name binding).get? other =
      if id = other then
        (s.get? other).map fun r => { r with bindings := r.bindings.put name binding }
      else s.get? other :=
  Array.getElem?_modify

theorem size_add (s : Scopes) (name : String) (outer : ScopeId) :
    (s.add name outer).size = s.size + 1 :=
  Array.size_push _

theorem size_put (s : Scopes) (id : ScopeId) (name : String) (binding : Binding) :
    (s.put id name binding).size = s.size :=
  Array.size_modify

theorem lt_size_of_get? {s : Scopes} {id : ScopeId} {scope : Scope}
    (h : s.get? id = some scope) : id < s.size :=
  (Array.getElem?_eq_some_iff.mp h).1

/-- The first scope that binds a name on a walk outwards over at most `steps` scopes. -/
def resolveWithin (s : Scopes) (name : String) : Nat → ScopeId → Option (ScopeId × Binding)
  | 0, _ => none
  | steps + 1, id =>
    match s.get? id with
    | none => none
    | some scope =>
      match scope.bindings.get? name with
      | some binding => some (id, binding)
      | none => scope.outer.bind (s.resolveWithin name steps)

/-- The first scope that binds a name on the walk outwards from a scope, with the binding. -/
def resolve? (s : Scopes) (start : ScopeId) (name : String) : Option (ScopeId × Binding) :=
  s.resolveWithin name s.size start

end Scopes

end ScriptTrace
