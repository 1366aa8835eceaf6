import ScriptTrace.Ast.Basic
import ScriptTrace.Number.Layout
import ScriptTrace.Text.Quoted

/-!
# Short descriptions of expressions

How an expression is named in the text of a step.  A chain of properties that begins with a name is
written as in the source, `console.log`; an expression that is not evaluated has a stand-in.

* `Expression.path?`: the dotted path of a chain of properties.
* `memberText`: the path of a property, or a stand-in when its object has none.
* `Expression.describe`: the description.
-/

namespace ScriptTrace

/-- The dotted path of a name or of a chain of properties that begins with one. -/
def Expression.path? : Expression → Option String
  | .identifier name => some name.name
  | .member _ base property => base.path?.map fun path => path ++ "." ++ property.name
  | _ => none

/-- The text for a property of an object. -/
def memberText (object : Expression) (property : String) : String :=
  match object.path? with
  | some base => base ++ "." ++ property
  | none => "<expression>." ++ property

/-- The text of a literal. -/
def Literal.describe : Literal → String
  | .null => "null"
  | .bool b => if b then "true" else "false"
  | .str s => Text.quote s
  | .num x => x.literalText

/-- A short description of an expression. -/
def Expression.describe : Expression → String
  | .identifier name => name.name
  | .member _ base property => memberText base property.name
  | .literal _ value => value.describe
  | .object _ _ => "\x7b...\x7d"
  | .array _ _ => "[...]"
  | .call _ callee _ => callee.describe ++ "()"
  | .function _ _ => "function"
  | .assignVariable _ _ _ | .assignMember _ _ _ _ _ | .unary _ _ _ | .binary _ _ _ _ =>
    "<expression>"

end ScriptTrace
