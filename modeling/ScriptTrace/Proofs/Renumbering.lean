import ScriptTrace.Ast.Build

/-!
# Where the numbers of functions begin

Building puts every function at the end of one array, and a reference to a function is its index
there.  So what is built of a node depends on how many functions there were before, and on nothing
else: built after other functions, the node has the same syntax tree with all its references moved
on, and its functions stand behind the others, with their references moved on as well
(`buildExpression_after`).

Two runs of a builder from different arrays are compared by one relation (`Build.MovesOn`).  The
only builder that looks at the array is the one that adds a function; every other one keeps the
relation because it is put together from builders that do.

* `Expression.renumber`, `FunctionDefinition.renumber`: syntax trees with references moved on.
* `Build.MovesOn`: builders that do the same from an array with other functions in front.
* `Movable`, `movable`: nodes that are built in the same way after other functions: all nodes.
* `buildExpression_after`: the result for expressions.
-/

namespace ScriptTrace

open Peg (Node)

/-! ## References moved on -/

mutual

/-- An expression with its references to functions moved on. -/
def Expression.renumber (k : Nat) : Expression → Expression
  | .literal span value => .literal span value
  | .identifier name => .identifier name
  | .object span properties => .object span (renumberProperties k properties)
  | .array span elements => .array span (renumberExpressions k elements)
  | .member span base property => .member span (base.renumber k) property
  | .assignVariable span target value => .assignVariable span target (value.renumber k)
  | .assignMember span targetSpan base property value =>
    .assignMember span targetSpan (base.renumber k) property (value.renumber k)
  | .call span callee arguments =>
    .call span (callee.renumber k) (renumberExpressions k arguments)
  | .function span id => .function span (k + id)
  | .unary span operator operand => .unary span operator (operand.renumber k)
  | .binary span operator left right =>
    .binary span operator (left.renumber k) (right.renumber k)

/-- Several expressions. -/
def renumberExpressions (k : Nat) : List Expression → List Expression
  | [] => []
  | e :: rest => e.renumber k :: renumberExpressions k rest

/-- The properties of an object literal. -/
def renumberProperties (k : Nat) : List (Property Expression) → List (Property Expression)
  | [] => []
  | ⟨span, key, value⟩ :: rest => ⟨span, key, value.renumber k⟩ :: renumberProperties k rest

end

/-- A declared variable with its references moved on. -/
def Declarator.renumber (k : Nat) (d : Declarator) : Declarator :=
  { d with init := d.init.map (Expression.renumber k) }

/-- A declaration with its references moved on. -/
def Declaration.renumber (k : Nat) (d : Declaration) : Declaration :=
  { d with declarators := d.declarators.map (Declarator.renumber k) }

/-- What stands before the first semicolon in the head of a counting loop. -/
def LoopStart.renumber (k : Nat) : LoopStart → LoopStart
  | .declaration d => .declaration (d.renumber k)
  | .expression e => .expression (e.renumber k)

mutual

/-- A statement with its references moved on. -/
def Statement.renumber (k : Nat) : Statement → Statement
  | .functionDeclaration span name id => .functionDeclaration span name (k + id)
  | .variables d => .variables (d.renumber k)
  | .expression span e => .expression span (e.renumber k)
  | .block span body => .block span (renumberStatements k body)
  | .conditional span test consequent none =>
    .conditional span (test.renumber k) (consequent.renumber k) none
  | .conditional span test consequent (some alternate) =>
    .conditional span (test.renumber k) (consequent.renumber k) (some (alternate.renumber k))
  | .whileLoop span test body => .whileLoop span (test.renumber k) (body.renumber k)
  | .forLoop span start test update body =>
    .forLoop span (start.map (LoopStart.renumber k)) (test.map (Expression.renumber k))
      (update.map (Expression.renumber k)) (body.renumber k)
  | .returns span argument => .returns span (argument.map (Expression.renumber k))
  | .empty span => .empty span

/-- Several statements. -/
def renumberStatements (k : Nat) : List Statement → List Statement
  | [] => []
  | s :: rest => s.renumber k :: renumberStatements k rest

end

/-- A function with its references moved on. -/
def FunctionDefinition.renumber (k : Nat) (f : FunctionDefinition) : FunctionDefinition :=
  { f with body := renumberStatements k f.body }

@[simp] theorem Expression.span_renumber (k : Nat) (e : Expression) :
    (e.renumber k).span = e.span := by
  cases e <;> rfl

/-! ## Builders after other functions -/

namespace Build

variable {α β γ δ : Type} {base : Array FunctionDefinition} {f : α → β} {g : γ → δ}

/-- With other functions in front, the second builder has the result of the first one, moved on,
and leaves the functions of the first one behind the others. -/
def MovesOn (base : Array FunctionDefinition) (f : α → β) (x : Build α) (y : Build β) : Prop :=
  ∀ fs, y (base ++ fs.map (FunctionDefinition.renumber base.size)) = (x fs).map fun result =>
    (f result.1, base ++ result.2.map (FunctionDefinition.renumber base.size))

namespace MovesOn

theorem pure {a : α} {b : β} (same : b = f a) : MovesOn base f (Pure.pure a) (Pure.pure b) := by
  subst same
  exact fun _ => rfl

theorem throw (error : BuildError) :
    MovesOn base f (throwThe BuildError error : Build α) (throwThe BuildError error : Build β) :=
  fun _ => rfl

theorem malformed {state : Nat} (node : Node Rule) :
    MovesOn base f (Build.malformed state node : Build α) (Build.malformed state node : Build β) :=
  throw _

theorem bind {x : Build α} {y : Build β} {next : α → Build γ} {next' : β → Build δ}
    (first : MovesOn base f x y) (each : ∀ a, MovesOn base g (next a) (next' (f a))) :
    MovesOn base g (x >>= next) (y >>= next') := by
  intro fs
  show (y _ >>= fun result => next' result.1 result.2) =
    (x fs >>= fun result => next result.1 result.2).map _
  rw [first fs]
  cases x fs with
  | error error => rfl
  | ok result => exact each result.1 result.2

/-- The index of a function is moved on by the number of the functions in front. -/
theorem addFunction (definition : FunctionDefinition) :
    MovesOn base (base.size + ·) (Build.addFunction definition)
      (Build.addFunction (definition.renumber base.size)) := by
  intro fs
  show Except.ok (_, _) = Except.ok (_, _)
  rw [Array.size_append, Array.size_map, Array.map_push, Array.append_push]

end MovesOn

end Build

open Build

/-! ## Nodes after other functions -/

section Nodes

variable {base : Array FunctionDefinition}

theorem movesOn_buildNumeral (node : Node Rule) :
    MovesOn base id (buildNumeral node) (buildNumeral node) := by
  unfold buildNumeral
  split
  · exact .pure rfl
  · exact .throw _

theorem movesOn_buildKind (node : Node Rule) :
    MovesOn base id (buildKind node) (buildKind node) := by
  unfold buildKind
  split
  · exact .pure rfl
  · exact .malformed _

theorem movesOn_buildUnaryOperator (node : Node Rule) :
    MovesOn base id (buildUnaryOperator node) (buildUnaryOperator node) := by
  unfold buildUnaryOperator
  split
  · exact .pure rfl
  · exact .malformed _

theorem movesOn_buildBinaryOperator (node : Node Rule) :
    MovesOn base id (buildBinaryOperator node) (buildBinaryOperator node) := by
  unfold buildBinaryOperator
  split
  · exact .pure rfl
  · exact .malformed _

theorem movesOn_buildKey (node : Node Rule) :
    MovesOn base id (buildKey node) (buildKey node) := by
  unfold buildKey
  split
  · exact .pure rfl
  · exact .pure rfl
  · exact (movesOn_buildNumeral node).bind fun x => .pure rfl
  · exact .malformed _

variable (base)

/-- A node that is built in the same way after other functions, and so are the nodes below it. -/
inductive Movable : Node Rule → Prop
  | intro {node : Node Rule}
      (expression : MovesOn base (Expression.renumber base.size) (buildExpression node)
        (buildExpression node))
      (statement : MovesOn base (Statement.renumber base.size) (buildStatement node)
        (buildStatement node))
      (each : ∀ child ∈ node.children, Movable child) : Movable node

variable {base}

namespace Movable

variable {node : Node Rule}

theorem expression (h : Movable base node) :
    MovesOn base (Expression.renumber base.size) (buildExpression node) (buildExpression node) := by
  cases h with
  | intro expression => exact expression

theorem statement (h : Movable base node) :
    MovesOn base (Statement.renumber base.size) (buildStatement node) (buildStatement node) := by
  cases h with
  | intro _ statement => exact statement

theorem each (h : Movable base node) : ∀ child ∈ node.children, Movable base child := by
  cases h with
  | intro _ _ each => exact each

end Movable

theorem movesOn_buildExpressions {nodes : List (Node Rule)}
    (each : ∀ node ∈ nodes, Movable base node) :
    MovesOn base (renumberExpressions base.size) (buildExpressions nodes)
      (buildExpressions nodes) := by
  induction nodes with
  | nil =>
    rw [buildExpressions]
    exact .pure rfl
  | cons node rest ih =>
    obtain ⟨own, others⟩ := List.forall_mem_cons.mp each
    rw [buildExpressions]
    exact own.expression.bind fun e => (ih others).bind fun es => .pure rfl

theorem movesOn_buildChain {nodes : List (Node Rule)}
    (each : ∀ node ∈ nodes, Movable base node) (chain : Node Rule) (left : Expression) :
    MovesOn base (Expression.renumber base.size) (buildChain chain left nodes)
      (buildChain chain (left.renumber base.size) nodes) := by
  unfold buildChain
  split
  · exact .pure rfl
  · exact .malformed _
  · simp only [List.forall_mem_cons] at each
    obtain ⟨-, own, others⟩ := each
    refine (movesOn_buildBinaryOperator _).bind fun symbol => ?_
    refine own.expression.bind fun right => ?_
    have further := movesOn_buildChain others chain
      (.binary ⟨left.span.start, right.span.stop⟩ symbol left right)
    simpa only [Expression.renumber, Expression.span_renumber, id] using further
termination_by sizeOf nodes

theorem movesOn_buildSuffixes {nodes : List (Node Rule)}
    (each : ∀ node ∈ nodes, Movable base node) (left : Expression) :
    MovesOn base (Expression.renumber base.size) (buildSuffixes left nodes)
      (buildSuffixes (left.renumber base.size) nodes) := by
  unfold buildSuffixes
  split
  · exact .pure rfl
  · obtain ⟨-, others⟩ := List.forall_mem_cons.mp each
    rw [Expression.span_renumber]
    exact movesOn_buildSuffixes others _
  · obtain ⟨own, others⟩ := List.forall_mem_cons.mp each
    refine (movesOn_buildExpressions own.each).bind fun es => ?_
    rw [Expression.span_renumber]
    exact movesOn_buildSuffixes others _
  · exact .malformed _
termination_by sizeOf nodes

theorem movesOn_buildProperties {nodes : List (Node Rule)}
    (each : ∀ node ∈ nodes, Movable base node) :
    MovesOn base (renumberProperties base.size) (buildProperties nodes)
      (buildProperties nodes) := by
  unfold buildProperties
  split
  · exact .pure rfl
  · obtain ⟨own, others⟩ := List.forall_mem_cons.mp each
    have below := own.each
    simp only [Node.children, List.forall_mem_cons] at below
    obtain ⟨-, value, -⟩ := below
    refine (movesOn_buildKey _).bind fun key => ?_
    refine value.expression.bind fun e => ?_
    exact (movesOn_buildProperties others).bind fun ps => .pure rfl
  · exact .malformed _
termination_by sizeOf nodes

theorem movesOn_buildDeclarators {nodes : List (Node Rule)}
    (each : ∀ node ∈ nodes, Movable base node) :
    MovesOn base (List.map (Declarator.renumber base.size)) (buildDeclarators nodes)
      (buildDeclarators nodes) := by
  unfold buildDeclarators
  split
  · exact .pure rfl
  · obtain ⟨-, others⟩ := List.forall_mem_cons.mp each
    exact (movesOn_buildDeclarators others).bind fun ds => .pure rfl
  · obtain ⟨own, others⟩ := List.forall_mem_cons.mp each
    have below := own.each
    simp only [Node.children, List.forall_mem_cons] at below
    obtain ⟨-, init, -⟩ := below
    refine init.expression.bind fun e => ?_
    exact (movesOn_buildDeclarators others).bind fun ds => .pure rfl
  · exact .malformed _
termination_by sizeOf nodes

theorem movesOn_buildOptional {nodes : List (Node Rule)}
    (each : ∀ node ∈ nodes, Movable base node) :
    MovesOn base (Option.map (Expression.renumber base.size)) (buildOptional nodes)
      (buildOptional nodes) := by
  unfold buildOptional
  split
  · exact .pure rfl
  · obtain ⟨own, -⟩ := List.forall_mem_cons.mp each
    exact own.expression.bind fun e => .pure rfl

theorem movesOn_buildLoopStart {nodes : List (Node Rule)}
    (each : ∀ node ∈ nodes, Movable base node) (span : Span) :
    MovesOn base (Option.map (LoopStart.renumber base.size)) (buildLoopStart span nodes)
      (buildLoopStart span nodes) := by
  unfold buildLoopStart
  split
  · exact .pure rfl
  · obtain ⟨-, others⟩ := List.forall_mem_cons.mp each
    refine (movesOn_buildKind _).bind fun kind => ?_
    exact (movesOn_buildDeclarators others).bind fun ds => .pure rfl
  · obtain ⟨own, -⟩ := List.forall_mem_cons.mp each
    exact own.expression.bind fun e => .pure rfl

theorem movesOn_buildStatements {nodes : List (Node Rule)}
    (each : ∀ node ∈ nodes, Movable base node) :
    MovesOn base (renumberStatements base.size) (buildStatements nodes)
      (buildStatements nodes) := by
  unfold buildStatements
  split
  · exact .pure rfl
  · obtain ⟨-, others⟩ := List.forall_mem_cons.mp each
    exact movesOn_buildStatements others
  · obtain ⟨own, others⟩ := List.forall_mem_cons.mp each
    refine own.statement.bind fun s => ?_
    exact (movesOn_buildStatements others).bind fun ss => .pure rfl
termination_by sizeOf nodes

/-- A function with its body. -/
theorem movesOn_function {α : Type} {f : α → α} {use : FunctionId → α} {span : Span}
    {name : Option Identifier} {parameters : List Identifier}
    {nodes : List (Node Rule)} (each : ∀ node ∈ nodes, Movable base node)
    (moved : ∀ id, use (base.size + id) = f (use id)) :
    MovesOn base f
      (do
        let body ← buildStatements nodes
        return use (← Build.addFunction ⟨span, name, parameters, body⟩))
      (do
        let body ← buildStatements nodes
        return use (← Build.addFunction ⟨span, name, parameters, body⟩)) := by
  refine (movesOn_buildStatements each).bind fun body => ?_
  exact (MovesOn.addFunction ⟨span, name, parameters, body⟩).bind fun id => .pure (moved id)

theorem movesOn_buildExpression {node : Node Rule}
    (each : ∀ child ∈ node.children, Movable base child) :
    MovesOn base (Expression.renumber base.size) (buildExpression node) (buildExpression node) := by
  unfold buildExpression
  split
  · simp only [Node.children, List.forall_mem_cons] at each
    obtain ⟨target, value, -⟩ := each
    refine target.expression.bind fun e => ?_
    cases e with
    | identifier name => exact value.expression.bind fun v => .pure rfl
    | member span base property => exact value.expression.bind fun v => .pure rfl
    | _ => exact .throw _
  · obtain ⟨operand, others⟩ := List.forall_mem_cons.mp each
    exact operand.expression.bind fun left => movesOn_buildChain others _ left
  · simp only [Node.children, List.forall_mem_cons] at each
    obtain ⟨-, operand, -⟩ := each
    refine (movesOn_buildUnaryOperator _).bind fun symbol => ?_
    exact operand.expression.bind fun e => .pure rfl
  · obtain ⟨primary, suffixes⟩ := List.forall_mem_cons.mp each
    exact primary.expression.bind fun e => movesOn_buildSuffixes suffixes e
  · exact .pure rfl
  · exact (movesOn_buildNumeral _).bind fun x => .pure rfl
  · exact .pure rfl
  · exact .pure rfl
  · exact .pure rfl
  · exact (movesOn_buildProperties each).bind fun ps => .pure rfl
  · exact (movesOn_buildExpressions each).bind fun es => .pure rfl
  · simp only [Node.children, List.forall_mem_cons] at each
    obtain ⟨-, -, body, -⟩ := each
    exact movesOn_function body.each fun id => rfl
  · simp only [Node.children, List.forall_mem_cons] at each
    obtain ⟨-, -, -, body, -⟩ := each
    exact movesOn_function body.each fun id => rfl
  · exact .malformed _

theorem movesOn_buildStatement {node : Node Rule}
    (each : ∀ child ∈ node.children, Movable base child) :
    MovesOn base (Statement.renumber base.size) (buildStatement node) (buildStatement node) := by
  unfold buildStatement
  split
  · simp only [Node.children, List.forall_mem_cons] at each
    obtain ⟨-, -, -, body, -⟩ := each
    exact movesOn_function body.each fun id => rfl
  · obtain ⟨-, declarators⟩ := List.forall_mem_cons.mp each
    refine (movesOn_buildKind _).bind fun kind => ?_
    exact (movesOn_buildDeclarators declarators).bind fun ds => .pure rfl
  · simp only [Node.children, List.forall_mem_cons] at each
    obtain ⟨-, test, consequent, -⟩ := each
    refine test.expression.bind fun e => ?_
    exact consequent.statement.bind fun s => .pure rfl
  · simp only [Node.children, List.forall_mem_cons] at each
    obtain ⟨-, test, consequent, -, alternate, -⟩ := each
    refine test.expression.bind fun e => ?_
    refine consequent.statement.bind fun s => ?_
    exact alternate.statement.bind fun t => .pure rfl
  · simp only [Node.children, List.forall_mem_cons] at each
    obtain ⟨-, test, body, -⟩ := each
    refine test.expression.bind fun e => ?_
    exact body.statement.bind fun s => .pure rfl
  · simp only [Node.children, List.forall_mem_cons] at each
    obtain ⟨-, start, test, update, body, -⟩ := each
    refine (movesOn_buildLoopStart start.each _).bind fun l => ?_
    refine (movesOn_buildOptional test.each).bind fun t => ?_
    refine (movesOn_buildOptional update.each).bind fun u => ?_
    exact body.statement.bind fun s => .pure rfl
  · obtain ⟨-, argument⟩ := List.forall_mem_cons.mp each
    exact (movesOn_buildOptional argument).bind fun e => .pure rfl
  · exact (movesOn_buildStatements each).bind fun ss => .pure rfl
  · exact .pure rfl
  · obtain ⟨e, -⟩ := List.forall_mem_cons.mp each
    exact e.expression.bind fun e => .pure rfl
  · exact .malformed _

mutual

/-- **Every node is built in the same way after other functions.** -/
theorem movable (base : Array FunctionDefinition) : ∀ node : Node Rule, Movable base node
  | .mk _ _ _ _ children =>
    have each : ∀ child ∈ children, Movable base child := movable_of_mem base children
    .intro (movesOn_buildExpression each) (movesOn_buildStatement each) each

theorem movable_of_mem (base : Array FunctionDefinition) :
    ∀ nodes : List (Node Rule), ∀ node ∈ nodes, Movable base node
  | [] => List.forall_mem_nil _
  | node :: rest => List.forall_mem_cons.mpr ⟨movable base node, movable_of_mem base rest⟩

end

end Nodes

/-- **An expression that is built after other functions** is the one that is built alone with its
references moved on, and so are its functions. -/
theorem buildExpression_after {node : Node Rule} {e : Expression} {fs : Array FunctionDefinition}
    (built : buildExpression node #[] = .ok (e, fs)) (base : Array FunctionDefinition) :
    buildExpression node base = .ok (e.renumber base.size,
      base ++ fs.map (FunctionDefinition.renumber base.size)) := by
  have moved := (movable base node).expression #[]
  rw [Array.map_empty, Array.append_empty, built] at moved
  exact moved

end ScriptTrace
