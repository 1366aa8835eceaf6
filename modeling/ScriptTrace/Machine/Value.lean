import ScriptTrace.Ast.Basic
import ScriptTrace.Json.Basic
import ScriptTrace.Number.Layout

/-!
# Values

What variables and properties of the simulated program hold.  Objects and functions are references:
an object by its index in the heap, a function by the name under which it was stored.

* `Value`: the values.
* `Value.text`: the text of a value, as a template string shows it.
* `Value.typeName`: the name of its type.
* `Number.toJson`: a number as recorded data.
-/

namespace ScriptTrace

/-- The index of an object in the heap. -/
abbrev ObjectId := Nat

/-- A value of the simulated program. -/
inductive Value where
  | undefined
  | null
  | bool (value : Bool)
  | str (value : String)
  | num (value : Number)
  | object (id : ObjectId)
  | function (name : String)
  deriving DecidableEq, Repr

instance : Inhabited Value := ⟨.undefined⟩

namespace Value

/-- The name of the type of a value; `null` counts as an object. -/
def typeName : Value → String
  | .undefined => "undefined"
  | .null => "object"
  | .bool _ => "boolean"
  | .str _ => "string"
  | .num _ => "number"
  | .object _ => "object"
  | .function _ => "function"

/-- The text of a value. -/
def text : Value → String
  | .undefined => "undefined"
  | .null => "null"
  | .bool b => if b then "true" else "false"
  | .str s => s
  | .num x => x.text
  | .object _ => "[object Object]"
  | .function name => "[Function: " ++ name ++ "]"

/-- The object that a value refers to. -/
def objectId? : Value → Option ObjectId
  | .object id => some id
  | _ => none

/-- The value of a literal. -/
def ofLiteral : Literal → Value
  | .null => .null
  | .bool b => .bool b
  | .str s => .str s
  | .num x => .num x

end Value

/-- A number as recorded data: a whole number below `9·10^15` in magnitude is an integer, and what
is no fraction is its text. -/
def Number.toJson (x : Number) : Json :=
  if x.isFinite then
    if x.isWhole && x.wholePart < 9000000000000000 then .int x.toInt else .num x
  else .str x.text

/-- How the steps of a trace name an object. -/
def objectLabel (id : ObjectId) : String :=
  "heap-" ++ toString id

end ScriptTrace
