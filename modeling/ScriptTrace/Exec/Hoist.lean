import ScriptTrace.Exec.Basic

/-!
# Hoisting

Before the statements of a script or of a function run, the names that they declare are bound.  A
function has its value at once, a `var` is undefined, and a `let` or `const` cannot be read yet.
Nested statements are not searched, and the functions declared inside a function are left out.

* `HoistMode`: whether functions are hoisted.
* `hoist`: the declarations of a list of statements, in order.
-/

namespace ScriptTrace

/-- Which declarations are hoisted. -/
inductive HoistMode where
  /-- Functions and variables. -/
  | script
  /-- Variables only. -/
  | functionBody
  deriving DecidableEq, Repr

/-- The binding of a variable before its declaration has run. -/
def DeclarationKind.hoisted (kind : DeclarationKind) : Binding :=
  if kind.isLexical then .uninitialized else .holding .undefined

/-- Stores a declared function and binds its name. -/
def hoistFunction (name : String) (id : FunctionId) : Exec Unit := do
  record (.storeFunction name)
  .perform (.storeFunction name id)
  let scope ← .asks fun m => m.scopeLabel m.currentScope
  record (.registerFunction name scope)
  .perform (.bind name (.holding (.function name)))

/-- Binds declared variables. -/
def hoistVariables (kind : DeclarationKind) : List Declarator → Exec Unit
  | [] => return ()
  | declarator :: rest => do
    let scope ← .asks fun m => m.scopeLabel m.currentScope
    record (.hoistVariable kind declarator.name.name scope)
    .perform (.bind declarator.name.name kind.hoisted)
    hoistVariables kind rest

/-- Binds what a list of statements declares, in order. -/
def hoist (mode : HoistMode) : List Statement → Exec Unit
  | [] => return ()
  | .functionDeclaration _ name id :: rest => do
    if mode = .script then hoistFunction name.name id
    hoist mode rest
  | .variables declaration :: rest => do
    hoistVariables declaration.kind declaration.declarators
    hoist mode rest
  | _ :: rest => hoist mode rest

end ScriptTrace
