import ScriptTrace.Ast.Basic

/-!
# Programs with other leaves

Two programs can have the same statements and expressions and still differ in what stands at the
leaves of their trees: in the stretches of source that the nodes were read from, and in the values
of literals.  A `Recast` says what becomes of these leaves, and `Program.recast` puts the new leaves
in place.  All names and operators, and all references to functions, stay what they are.

Two recasts are used.

* `Recast.moving`: the offsets of all stretches are changed, and nothing else is.  With a sum for
  the new offset, the program is the same one further into a source; with a constant, what is left
  of a program is what does not depend on where it stands (`Expression.unplaced`).
* `Recast.masking`: all literals become the same literal, and nothing else is changed.  Programs
  that are equal under this recast differ in the values of literals only.

A key of a property that is a string or a numeral is a literal too.

A recast that changes nothing leaves a program as it is (`Program.recast_id`).
-/

namespace ScriptTrace

/-- What becomes of the leaves of a syntax tree. -/
structure Recast where
  /-- The offset in the place of an offset. -/
  offset : Nat → Nat := id
  /-- The literal in the place of a literal. -/
  literal : Literal → Literal := id
  /-- The key in the place of a key that is a string or a numeral. -/
  literalKey : PropertyKey → PropertyKey := id

namespace Recast

/-- The offsets of all stretches are changed. -/
def moving (offset : Nat → Nat) : Recast where
  offset := offset

/-- All literals become the same. -/
def masking : Recast where
  literal _ := .null
  literalKey _ := .str ""

variable (r : Recast)

/-- The new stretch. -/
def span (s : Span) : Span :=
  ⟨r.offset s.start, r.offset s.stop⟩

/-- The name in its new stretch. -/
def name (n : Identifier) : Identifier :=
  ⟨n.name, r.span n.span⟩

/-- The new key.  A key that is a plain name stays. -/
def key : PropertyKey → PropertyKey
  | .name n => .name n
  | .str s => r.literalKey (.str s)
  | .num x => r.literalKey (.num x)

end Recast

mutual

/-- An expression with other leaves. -/
def Expression.recast (r : Recast) : Expression → Expression
  | .literal span value => .literal (r.span span) (r.literal value)
  | .identifier name => .identifier (r.name name)
  | .object span properties => .object (r.span span) (recastProperties r properties)
  | .array span elements => .array (r.span span) (recastExpressions r elements)
  | .member span base property => .member (r.span span) (base.recast r) (r.name property)
  | .assignVariable span target value =>
    .assignVariable (r.span span) (r.name target) (value.recast r)
  | .assignMember span targetSpan base property value =>
    .assignMember (r.span span) (r.span targetSpan) (base.recast r) (r.name property)
      (value.recast r)
  | .call span callee arguments =>
    .call (r.span span) (callee.recast r) (recastExpressions r arguments)
  | .function span id => .function (r.span span) id
  | .unary span operator operand => .unary (r.span span) operator (operand.recast r)
  | .binary span operator left right =>
    .binary (r.span span) operator (left.recast r) (right.recast r)

/-- Several expressions. -/
def recastExpressions (r : Recast) : List Expression → List Expression
  | [] => []
  | e :: rest => e.recast r :: recastExpressions r rest

/-- The properties of an object literal. -/
def recastProperties (r : Recast) : List (Property Expression) → List (Property Expression)
  | [] => []
  | ⟨span, key, value⟩ :: rest =>
    ⟨r.span span, r.key key, value.recast r⟩ :: recastProperties r rest

end

/-- A declared variable with other leaves. -/
def Declarator.recast (r : Recast) (d : Declarator) : Declarator :=
  ⟨r.span d.span, r.name d.name, d.init.map (Expression.recast r)⟩

/-- A declaration with other leaves. -/
def Declaration.recast (r : Recast) (d : Declaration) : Declaration :=
  ⟨r.span d.span, d.kind, d.declarators.map (Declarator.recast r)⟩

/-- What stands before the first semicolon in the head of a counting loop. -/
def LoopStart.recast (r : Recast) : LoopStart → LoopStart
  | .declaration d => .declaration (d.recast r)
  | .expression e => .expression (e.recast r)

mutual

/-- A statement with other leaves. -/
def Statement.recast (r : Recast) : Statement → Statement
  | .functionDeclaration span name id => .functionDeclaration (r.span span) (r.name name) id
  | .variables d => .variables (d.recast r)
  | .expression span e => .expression (r.span span) (e.recast r)
  | .block span body => .block (r.span span) (recastStatements r body)
  | .conditional span test consequent none =>
    .conditional (r.span span) (test.recast r) (consequent.recast r) none
  | .conditional span test consequent (some alternate) =>
    .conditional (r.span span) (test.recast r) (consequent.recast r) (some (alternate.recast r))
  | .whileLoop span test body => .whileLoop (r.span span) (test.recast r) (body.recast r)
  | .forLoop span start test update body =>
    .forLoop (r.span span) (start.map (LoopStart.recast r)) (test.map (Expression.recast r))
      (update.map (Expression.recast r)) (body.recast r)
  | .returns span argument => .returns (r.span span) (argument.map (Expression.recast r))
  | .empty span => .empty (r.span span)

/-- Several statements. -/
def recastStatements (r : Recast) : List Statement → List Statement
  | [] => []
  | s :: rest => s.recast r :: recastStatements r rest

end

/-- A function with other leaves. -/
def FunctionDefinition.recast (r : Recast) (f : FunctionDefinition) : FunctionDefinition :=
  ⟨r.span f.span, f.name.map r.name, f.parameters.map r.name, recastStatements r f.body⟩

/-- A program with other leaves. -/
def Program.recast (r : Recast) (p : Program) : Program :=
  ⟨recastStatements r p.body, p.functions.map (FunctionDefinition.recast r)⟩

/-! ## What a recast leaves alone -/

@[simp] theorem Recast.name_name (r : Recast) (n : Identifier) : (r.name n).name = n.name := rfl

theorem recastExpressions_eq_map (r : Recast) (es : List Expression) :
    recastExpressions r es = es.map (Expression.recast r) := by
  induction es with
  | nil => rfl
  | cons e rest ih => rw [recastExpressions, ih, List.map_cons]

theorem recastStatements_eq_map (r : Recast) (statements : List Statement) :
    recastStatements r statements = statements.map (Statement.recast r) := by
  induction statements with
  | nil => rfl
  | cons s rest ih => rw [recastStatements, ih, List.map_cons]

/-- The functions keep their indices. -/
theorem Program.function?_recast (r : Recast) (p : Program) (id : FunctionId) :
    (p.recast r).function? id = (p.function? id).map (FunctionDefinition.recast r) :=
  Array.getElem?_map

/-! ## Forgetting the stretches -/

namespace Expression

/-- An expression without the stretches of source that it was read from. -/
def unplaced (e : Expression) : Expression :=
  e.recast (.moving fun _ => 0)

variable (span targetSpan : Span) (name property : Identifier)
variable (base value operand left right : Expression)

@[simp] theorem unplaced_literal (x : Literal) :
    (literal span x).unplaced = literal ⟨0, 0⟩ x := rfl

@[simp] theorem unplaced_identifier :
    (identifier name).unplaced = identifier ⟨name.name, ⟨0, 0⟩⟩ := rfl

@[simp] theorem unplaced_object (properties : List (Property Expression)) :
    (object span properties).unplaced =
      object ⟨0, 0⟩ (recastProperties (.moving fun _ => 0) properties) := rfl

@[simp] theorem unplaced_array (elements : List Expression) :
    (array span elements).unplaced = array ⟨0, 0⟩ (elements.map unplaced) := by
  rw [unplaced, recast, recastExpressions_eq_map]
  rfl

@[simp] theorem unplaced_member :
    (member span base property).unplaced =
      member ⟨0, 0⟩ base.unplaced ⟨property.name, ⟨0, 0⟩⟩ := rfl

@[simp] theorem unplaced_assignVariable :
    (assignVariable span name value).unplaced =
      assignVariable ⟨0, 0⟩ ⟨name.name, ⟨0, 0⟩⟩ value.unplaced := rfl

@[simp] theorem unplaced_assignMember :
    (assignMember span targetSpan base property value).unplaced =
      assignMember ⟨0, 0⟩ ⟨0, 0⟩ base.unplaced ⟨property.name, ⟨0, 0⟩⟩ value.unplaced := rfl

@[simp] theorem unplaced_call (callee : Expression) (arguments : List Expression) :
    (call span callee arguments).unplaced =
      call ⟨0, 0⟩ callee.unplaced (arguments.map unplaced) := by
  rw [unplaced, recast, recastExpressions_eq_map]
  rfl

@[simp] theorem unplaced_function (id : FunctionId) :
    (function span id).unplaced = function ⟨0, 0⟩ id := rfl

@[simp] theorem unplaced_unary (operator : UnaryOperator) :
    (unary span operator operand).unplaced = unary ⟨0, 0⟩ operator operand.unplaced := rfl

@[simp] theorem unplaced_binary (operator : BinaryOperator) :
    (binary span operator left right).unplaced =
      binary ⟨0, 0⟩ operator left.unplaced right.unplaced := rfl

end Expression

/-! ## The recast that changes nothing -/

mutual

theorem Expression.recast_id : ∀ e : Expression, e.recast (.moving id) = e
  | .literal _ _ | .identifier _ | .function _ _ => rfl
  | .object span properties => congrArg (Expression.object span) (recastProperties_id properties)
  | .array span elements => congrArg (Expression.array span) (recastExpressions_id elements)
  | .member span base property => congrArg (Expression.member span · property) base.recast_id
  | .assignVariable span target value =>
    congrArg (Expression.assignVariable span target) value.recast_id
  | .assignMember _ _ base _ value => by
    rw [Expression.recast, base.recast_id, value.recast_id]
    rfl
  | .call _ callee arguments => by
    rw [Expression.recast, callee.recast_id, recastExpressions_id arguments]
    rfl
  | .unary span operator operand => congrArg (Expression.unary span operator) operand.recast_id
  | .binary _ _ left right => by
    rw [Expression.recast, left.recast_id, right.recast_id]
    rfl

theorem recastExpressions_id : ∀ es : List Expression, recastExpressions (.moving id) es = es
  | [] => rfl
  | e :: rest => by rw [recastExpressions, e.recast_id, recastExpressions_id rest]

theorem recastProperties_id : ∀ properties : List (Property Expression),
    recastProperties (.moving id) properties = properties
  | [] => rfl
  | ⟨span, .name key, value⟩ :: rest | ⟨span, .str key, value⟩ :: rest
  | ⟨span, .num key, value⟩ :: rest => by
    rw [recastProperties, value.recast_id, recastProperties_id rest]
    rfl

end

theorem Declaration.recast_id (d : Declaration) : d.recast (.moving id) = d := by
  have each : Declarator.recast (.moving id) = id := by
    funext ⟨span, name, init⟩
    rw [Declarator.recast, funext Expression.recast_id]
    cases init <;> rfl
  rw [Declaration.recast, each, List.map_id]
  rfl

theorem LoopStart.recast_id : ∀ start : LoopStart, start.recast (.moving id) = start
  | .declaration d => congrArg LoopStart.declaration d.recast_id
  | .expression e => congrArg LoopStart.expression e.recast_id

mutual

theorem Statement.recast_id : ∀ s : Statement, s.recast (.moving id) = s
  | .functionDeclaration _ _ _ | .empty _ => rfl
  | .variables d => congrArg Statement.variables d.recast_id
  | .expression span e => congrArg (Statement.expression span) e.recast_id
  | .block span body => congrArg (Statement.block span) (recastStatements_id body)
  | .conditional _ test consequent none => by
    rw [Statement.recast, test.recast_id, consequent.recast_id]
    rfl
  | .conditional _ test consequent (some alternate) => by
    rw [Statement.recast, test.recast_id, consequent.recast_id, alternate.recast_id]
    rfl
  | .whileLoop _ test body => by
    rw [Statement.recast, test.recast_id, body.recast_id]
    rfl
  | .forLoop _ _ _ _ body => by
    rw [Statement.recast, funext LoopStart.recast_id, funext Expression.recast_id, body.recast_id,
      Option.map_id', Option.map_id', Option.map_id']
    rfl
  | .returns _ argument => by
    rw [Statement.recast, funext Expression.recast_id]
    cases argument <;> rfl

theorem recastStatements_id : ∀ statements : List Statement,
    recastStatements (.moving id) statements = statements
  | [] => rfl
  | s :: rest => by rw [recastStatements, s.recast_id, recastStatements_id rest]

end

theorem FunctionDefinition.recast_id (f : FunctionDefinition) : f.recast (.moving id) = f := by
  have names : (Recast.moving id).name = id := rfl
  rw [FunctionDefinition.recast, names, Option.map_id, List.map_id, recastStatements_id]
  rfl

theorem Program.recast_id (p : Program) : p.recast (.moving id) = p := by
  rw [Program.recast, recastStatements_id, funext FunctionDefinition.recast_id, Array.map_id']

end ScriptTrace
