import ScriptTrace.Ast.Describe
import ScriptTrace.Exec.Basic

/-!
# Evaluating expressions

Literals, names, object literals and properties are evaluated.  Every other expression is undefined,
and nothing inside it is evaluated.

An object literal first has its object in the heap and then gets its properties one by one.  Only
properties with a plain name for a key are evaluated.

* `evaluate`: the value of an expression.
-/

namespace ScriptTrace

mutual

/-- The value of an expression. -/
def evaluate : Expression → Exec Value
  | .literal _ value => return .ofLiteral value
  | .identifier name => .asksOrRaises fun m => m.lookup name.name
  | .object _ properties => do
    let id ← .asks fun m => m.heap.objects.size
    .perform .allocate
    record (.createObject id)
    fillObject id properties
    return .object id
  | .member _ base property => do
    let object ← evaluate base
    record (.readProperty base.describe property.name)
    .asks fun m => m.heap.property object property.name
  | _ => return .undefined

/-- Gives an object the properties of a literal, in order. -/
def fillObject (id : ObjectId) : List (Property Expression) → Exec Unit
  | [] => return ()
  | ⟨_, .name key, value⟩ :: rest => do
    let value ← evaluate value
    .perform (.setProperty id key value)
    let shown ← .asks fun m => m.shown value
    record (.initializeProperty id key shown)
    fillObject id rest
  | _ :: rest => fillObject id rest

end

end ScriptTrace
