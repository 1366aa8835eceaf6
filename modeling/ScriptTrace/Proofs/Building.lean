import ScriptTrace.Ast.Build

/-!
# Where building stops

A matched tree has no syntax tree when an assignment in it has a target that cannot be assigned to.
Which nodes those are is said here of the matched tree alone, without building it (`isTarget`,
`invalidTargets`), and in the order in which building comes upon them: a target is searched before
it is itself looked at, and that before the right side of the assignment is searched.

`Build.StopsAt bad ensures x` says that the builder `x` stops at the first of the nodes `bad`, with
the error for it, and gives a result where there is none.  Since the nodes of one builder stand
before those of the next (`Build.StopsAt.bind`), what a builder does with a node follows from what
the builders that it calls do with the children.  There is one lemma for each form of node.  None of
them knows of the grammar; they say what the children must be for the node to be built.

* `isTarget`, `invalidTargets`, `mem_invalidTargets_iff`: the targets in a tree.
* `Build.StopsAt`: where building stops.
* `BuildsExpression`, `BuildsStatement`: nodes that are built, up to the targets in them.
-/

namespace ScriptTrace

open Peg (Node)

/-! ## Targets -/

/-- Whether a node can be assigned to: a name, a property, or one of them in parentheses.  A
parenthesis leaves no node of its own, so what stands inside is a chain of operands. -/
def isTarget : Node Rule → Bool
  | .mk .identifier _ _ _ _ => true
  | .mk .binaryExpression _ _ _ [operand] => isTarget operand
  | .mk .memberExpression _ _ _ [primary] => isTarget primary
  | .mk .memberExpression _ _ _ (_ :: suffixes) =>
    (suffixes.getLast?.map fun suffix => suffix.rule) == some .dotProperty
  | _ => false

mutual

/-- The targets in a tree that cannot be assigned to: of an assignment first those inside its
target, then the target itself, and then those in its right side; of other nodes those in the
children, in order. -/
def invalidTargets : Node Rule → List (Node Rule)
  | .mk .assignmentExpression _ _ _ (target :: values) =>
    invalidTargets target ++ ((if isTarget target then [] else [target]) ++ invalidTargetsIn values)
  | .mk _ _ _ _ children => invalidTargetsIn children

/-- The targets in some trees that cannot be assigned to, in order. -/
def invalidTargetsIn : List (Node Rule) → List (Node Rule)
  | [] => []
  | node :: rest => invalidTargets node ++ invalidTargetsIn rest

end

/-- The first node stands in the tree of the second. -/
inductive Peg.Node.Within {ρ : Type} : Node ρ → Node ρ → Prop
  | refl (node : Node ρ) : Within node node
  | child {node child parent : Node ρ} (mem : child ∈ parent.children)
      (inside : Within node child) : Within node parent

/-- An assignment in a tree, and its target. -/
structure Peg.Node.Assigns (assignment target : Node Rule) : Prop where
  rule_eq : assignment.rule = .assignmentExpression
  target_eq : assignment.children.head? = some target

/-- A node of a rule with children that have a property. -/
def NodeOf (r : Rule) (P : List (Node Rule) → Prop) (node : Node Rule) : Prop :=
  ∃ a b text children, node = .mk r a b text children ∧ P children

theorem invalidTargets_of_ne {r : Rule} (ne : r ≠ .assignmentExpression) (a b : Nat)
    (text : List Char) (children : List (Node Rule)) :
    invalidTargets (.mk r a b text children) = invalidTargetsIn children := by
  rw [invalidTargets]
  rintro target values rfl
  exact absurd rfl ne

/-- The targets in a node are its own and those in its children. -/
theorem mem_invalidTargets_iff_own {node target : Node Rule} :
    target ∈ invalidTargets node ↔
      node.Assigns target ∧ isTarget target = false ∨ target ∈ invalidTargetsIn node.children := by
  obtain ⟨r, a, b, text, children⟩ := node
  by_cases assignment : r = .assignmentExpression ∧ children ≠ []
  · obtain ⟨rfl, ne⟩ := assignment
    obtain ⟨own, values, rfl⟩ := List.exists_cons_of_ne_nil ne
    have assigns : (Node.mk Rule.assignmentExpression a b text (own :: values)).Assigns target ↔
        target = own := by
      refine ⟨fun h => (Option.some.inj h.target_eq).symm, ?_⟩
      rintro rfl
      exact ⟨rfl, rfl⟩
    have itself : target ∈ (if isTarget own then [] else [own]) ↔
        target = own ∧ isTarget own = false := by
      cases isTarget own <;> simp
    rw [invalidTargets, List.mem_append, List.mem_append, itself, assigns]
    show _ ↔ _ ∨ target ∈ invalidTargets own ++ invalidTargetsIn values
    rw [List.mem_append]
    constructor
    · rintro (h | ⟨rfl, h⟩ | h)
      · exact Or.inr (Or.inl h)
      · exact Or.inl ⟨rfl, h⟩
      · exact Or.inr (Or.inr h)
    · rintro (⟨rfl, h⟩ | h | h)
      · exact Or.inr (Or.inl ⟨rfl, h⟩)
      · exact Or.inl h
      · exact Or.inr (Or.inr h)
  · have none : ¬ (Node.mk r a b text children).Assigns target := by
      intro assigns
      refine assignment ⟨assigns.rule_eq, ?_⟩
      rintro rfl
      exact nomatch assigns.target_eq
    have all : invalidTargets (.mk r a b text children) = invalidTargetsIn children := by
      rw [invalidTargets]
      rintro own values rfl rfl
      exact assignment ⟨rfl, List.cons_ne_nil _ _⟩
    rw [all]
    exact ⟨Or.inr, fun h => h.resolve_left fun own => none own.1⟩

/-- A node in a tree is the tree or stands in a child of it. -/
theorem Peg.Node.within_iff {ρ : Type} {node parent : Node ρ} :
    node.Within parent ↔ node = parent ∨ ∃ child ∈ parent.children, node.Within child := by
  constructor
  · rintro (_ | ⟨mem, inside⟩)
    · exact Or.inl rfl
    · exact Or.inr ⟨_, mem, inside⟩
  · rintro (rfl | ⟨child, mem, inside⟩)
    · exact .refl node
    · exact .child mem inside

mutual

/-- **The invalid targets of a tree are those of the assignments in it.** -/
theorem mem_invalidTargets_iff (target : Node Rule) : ∀ node : Node Rule,
    target ∈ invalidTargets node ↔
      ∃ assignment : Node Rule, assignment.Within node ∧ assignment.Assigns target ∧
        isTarget target = false
  | .mk r a b text children => by
    rw [mem_invalidTargets_iff_own]
    show _ ∨ target ∈ invalidTargetsIn children ↔ _
    rw [mem_invalidTargetsIn_iff target children]
    constructor
    · rintro (⟨assigns, invalid⟩ | ⟨child, mem, assignment, inside, rest⟩)
      · exact ⟨_, .refl _, assigns, invalid⟩
      · exact ⟨assignment, .child mem inside, rest⟩
    · rintro ⟨assignment, inside, rest⟩
      rcases Node.within_iff.mp inside with rfl | ⟨child, mem, inside⟩
      · exact Or.inl rest
      · exact Or.inr ⟨child, mem, assignment, inside, rest⟩

theorem mem_invalidTargetsIn_iff (target : Node Rule) : ∀ nodes : List (Node Rule),
    target ∈ invalidTargetsIn nodes ↔
      ∃ node ∈ nodes, ∃ assignment : Node Rule, assignment.Within node ∧
        assignment.Assigns target ∧ isTarget target = false
  | [] => by simp [invalidTargetsIn]
  | node :: rest => by
    rw [invalidTargetsIn, List.mem_append, mem_invalidTargets_iff target node,
      mem_invalidTargetsIn_iff target rest]
    simp only [List.mem_cons, exists_eq_or_imp]

end

/-! ## Where building stops -/

namespace Build

variable {α β : Type}

/-- A builder that stops at the first of some nodes, and where there is none gives a result. -/
def StopsAt (x : Build α) : List (Node Rule) → (α → Prop) → Prop
  | [], ensures =>
    ∀ functions, ∃ result functions', x functions = .ok (result, functions') ∧ ensures result
  | target :: _, _ => ∀ functions, x functions = .error (.invalidTarget (nodeSpan target))

namespace StopsAt

variable {x : Build α} {next : α → Build β} {bad more : List (Node Rule)}
variable {ensures : α → Prop} {ensures' : β → Prop}

theorem pure {result : α} (h : ensures result) : StopsAt (Pure.pure result) [] ensures :=
  fun functions => ⟨result, functions, rfl, h⟩

theorem invalidTarget (target : Node Rule) :
    StopsAt (throw (.invalidTarget (nodeSpan target)) : Build α) (target :: more) ensures :=
  fun _ => rfl

theorem addFunction (f : FunctionDefinition) : (addFunction f).StopsAt [] fun _ => True :=
  fun functions => ⟨functions.size, functions.push f, rfl, trivial⟩

/-- A builder that reads a text, where the text can be read. -/
theorem of_isSome {read : Option α} (h : read.isSome = true)
    (answers : ∀ result, read = some result → x = Pure.pure result) :
    x.StopsAt [] fun _ => True := by
  obtain ⟨result, found⟩ := Option.isSome_iff_exists.mp h
  rw [answers result found]
  exact .pure trivial

theorem mono {weaker : α → Prop} (h : x.StopsAt bad ensures)
    (le : ∀ a, ensures a → weaker a) : x.StopsAt bad weaker := by
  cases bad with
  | nil =>
    intro functions
    obtain ⟨result, functions', ran, ensured⟩ := h functions
    exact ⟨result, functions', ran, le result ensured⟩
  | cons target rest => exact h

/-- A builder that stops only at targets does not meet a node that the grammar does not give. -/
theorem ne_malformed (h : x.StopsAt bad ensures) (state : Nat) (node : Node Rule) :
    x ≠ malformed state node := by
  rintro rfl
  cases bad with
  | nil =>
    obtain ⟨_, _, built, -⟩ := h #[]
    exact nomatch built
  | cons target rest => exact nomatch h #[]

/-- One builder after another: the nodes of the first come first. -/
theorem bind (first : x.StopsAt bad ensures)
    (each : ∀ a, ensures a → (next a).StopsAt more ensures') :
    (x >>= next).StopsAt (bad ++ more) ensures' := by
  have run : ∀ functions, (x >>= next) functions = (x functions >>= fun p => next p.1 p.2) :=
    fun _ => rfl
  match bad, more, first, each with
  | target :: _, _, first, _ =>
    intro functions
    rw [run, first functions]
    rfl
  | [], [], first, each =>
    intro functions
    obtain ⟨a, functions', ran, ensured⟩ := first functions
    obtain ⟨b, functions'', ran', ensured'⟩ := each a ensured functions'
    refine ⟨b, functions'', ?_, ensured'⟩
    rw [run, ran]
    exact ran'
  | [], target :: _, first, each =>
    intro functions
    obtain ⟨a, functions', ran, ensured⟩ := first functions
    rw [run, ran]
    exact each a ensured functions'

/-- A builder after which nothing stops. -/
theorem bind_nil (first : x.StopsAt bad ensures)
    (each : ∀ a, ensures a → (next a).StopsAt [] ensures') : (x >>= next).StopsAt bad ensures' := by
  have both := first.bind each
  rwa [List.append_nil] at both

theorem bind_pure {f : α → β} (first : x.StopsAt bad ensures)
    (each : ∀ a, ensures a → ensures' (f a)) :
    StopsAt (do return f (← x)) bad ensures' :=
  first.bind_nil fun a ensured => .pure (each a ensured)

end StopsAt

end Build

/-! ## Words -/

/-- What the text of a word must be for the word to be built. -/
def Rule.Admits : Rule → List Char → Prop
  | .numericLiteral, text => (Number.ofNumeral? text).isSome = true
  | .variableKind, text => (DeclarationKind.ofWord? (String.ofList text)).isSome = true
  | .unaryOperator, text => (UnaryOperator.ofSymbol? (String.ofList text)).isSome = true
  | .binaryOperator, text => (BinaryOperator.ofSymbol? (String.ofList text)).isSome = true
  | _, _ => True

/-- A node of a rule with a text for which it is built, and no targets in it. -/
structure IsWord (r : Rule) (node : Node Rule) : Prop where
  rule_eq : node.rule = r
  invalidTargets_eq : invalidTargets node = []
  admits : r.Admits node.text

namespace IsWord

variable {node : Node Rule}

theorem stopsAt_buildNumeral (h : IsWord .numericLiteral node) :
    (buildNumeral node).StopsAt [] fun _ => True :=
  .of_isSome h.admits fun _ read => by rw [buildNumeral, read]

theorem stopsAt_buildKind (h : IsWord .variableKind node) :
    (buildKind node).StopsAt [] fun _ => True :=
  .of_isSome h.admits fun _ read => by rw [buildKind, read]

theorem stopsAt_buildUnaryOperator (h : IsWord .unaryOperator node) :
    (buildUnaryOperator node).StopsAt [] fun _ => True :=
  .of_isSome h.admits fun _ read => by rw [buildUnaryOperator, read]

theorem stopsAt_buildBinaryOperator (h : IsWord .binaryOperator node) :
    (buildBinaryOperator node).StopsAt [] fun _ => True :=
  .of_isSome h.admits fun _ read => by rw [buildBinaryOperator, read]

end IsWord

/-- A node that is built as the key of a property. -/
def IsKey (node : Node Rule) : Prop :=
  IsWord .identifierName node ∨ IsWord .stringLiteral node ∨ IsWord .numericLiteral node

theorem IsKey.invalidTargets_eq {node : Node Rule} (h : IsKey node) : invalidTargets node = [] := by
  obtain h | h | h := h <;> exact h.invalidTargets_eq

theorem IsKey.stopsAt_buildKey {node : Node Rule} (h : IsKey node) :
    (buildKey node).StopsAt [] fun _ => True := by
  rw [buildKey]
  obtain h | h | h := h
  · rw [h.rule_eq]
    exact .pure trivial
  · rw [h.rule_eq]
    exact .pure trivial
  · rw [h.rule_eq]
    exact h.stopsAt_buildNumeral.bind_pure fun _ _ => trivial

/-! ## Expressions -/

-- Every lemma below opens one of these two by its equation.
attribute [local simp] buildExpression buildStatement

/-- Whether an expression can be assigned to. -/
def Expression.isAssignable : Expression → Bool
  | .identifier _ | .member _ _ _ => true
  | _ => false

/-- A node that is built as an expression, up to the invalid targets in it.  It can be assigned to
if the node is a target. -/
def BuildsExpression (node : Node Rule) : Prop :=
  (buildExpression node).StopsAt (invalidTargets node) fun e => e.isAssignable = isTarget node

/-- A node that is built as a statement, up to the invalid targets in it. -/
def BuildsStatement (node : Node Rule) : Prop :=
  (buildStatement node).StopsAt (invalidTargets node) fun _ => True

section Expressions

variable {a b : Nat} {text : List Char} {node : Node Rule}

/-- The words that are expressions.  Of them only a name can be assigned to. -/
theorem IsWord.buildsExpression {r : Rule} (h : IsWord r node)
    (primary : r = .identifier ∨ r = .numericLiteral ∨ r = .stringLiteral ∨ r = .booleanLiteral ∨
      r = .nullLiteral) : BuildsExpression node := by
  rw [BuildsExpression, h.invalidTargets_eq]
  obtain ⟨r', a, b, text, children⟩ := node
  obtain rfl : r' = r := h.rule_eq
  obtain rfl | rfl | rfl | rfl | rfl := primary
  · rw [buildExpression]
    exact .pure rfl
  · rw [buildExpression]
    exact h.stopsAt_buildNumeral.bind_pure fun _ _ => rfl
  · rw [buildExpression]
    exact .pure rfl
  · rw [buildExpression]
    exact .pure rfl
  · rw [buildExpression]
    exact .pure rfl

/-- An assignment stops inside its target, at its target, or in its right side. -/
theorem buildsExpression_assignment {target value : Node Rule} (ht : BuildsExpression target)
    (hv : BuildsExpression value) :
    BuildsExpression (.mk .assignmentExpression a b text [target, value]) := by
  rw [BuildsExpression, buildExpression, invalidTargets, invalidTargetsIn, invalidTargetsIn,
    List.append_nil]
  refine ht.bind fun e assignable => ?_
  cases e with
  | identifier name =>
    rw [show isTarget target = true from assignable.symm]
    exact hv.bind_pure fun _ _ => rfl
  | member span base property =>
    rw [show isTarget target = true from assignable.symm]
    exact hv.bind_pure fun _ _ => rfl
  | _ =>
    rw [show isTarget target = false from assignable.symm]
    exact .invalidTarget target

theorem buildsExpression_prefix {operator operand : Node Rule}
    (ho : IsWord .unaryOperator operator) (he : BuildsExpression operand) :
    BuildsExpression (.mk .prefixExpression a b text [operator, operand]) := by
  rw [BuildsExpression, buildExpression, invalidTargets_of_ne (by decide)]
  simp only [invalidTargetsIn, ho.invalidTargets_eq, List.nil_append, List.append_nil]
  exact ho.stopsAt_buildUnaryOperator.bind fun _ _ => he.bind_pure fun _ _ => rfl

theorem stopsAt_buildExpressions {nodes : List (Node Rule)}
    (each : ∀ node ∈ nodes, BuildsExpression node) :
    (buildExpressions nodes).StopsAt (invalidTargetsIn nodes) fun _ => True := by
  induction nodes with
  | nil =>
    rw [buildExpressions]
    exact .pure trivial
  | cons node rest ih =>
    obtain ⟨here, further⟩ := List.forall_mem_cons.mp each
    rw [buildExpressions, invalidTargetsIn]
    exact here.bind fun _ _ => (ih further).bind_pure fun _ _ => trivial

/-- An operator with the operand after it. -/
def IsLink (nodes : List (Node Rule)) : Prop :=
  ∃ operator operand, nodes = [operator, operand] ∧ IsWord .binaryOperator operator ∧
    BuildsExpression operand

theorem stopsAt_buildChain {links : List (List (Node Rule))} (each : ∀ link ∈ links, IsLink link)
    (chain : Node Rule) (left : Expression) :
    (buildChain chain left links.flatten).StopsAt (invalidTargetsIn links.flatten) fun e =>
      e.isAssignable = (links.isEmpty && left.isAssignable) := by
  induction links generalizing left with
  | nil =>
    rw [List.flatten_nil, buildChain]
    exact .pure rfl
  | cons link links ih =>
    obtain ⟨⟨operator, operand, rfl, ho, he⟩, further⟩ := List.forall_mem_cons.mp each
    rw [List.flatten_cons, List.cons_append, List.cons_append, List.nil_append, buildChain,
      invalidTargetsIn, ho.invalidTargets_eq, invalidTargetsIn]
    refine ho.stopsAt_buildBinaryOperator.bind fun op _ => he.bind fun right _ => ?_
    have rest := ih further (.binary ⟨left.span.start, right.span.stop⟩ op left right)
    simpa only [Expression.isAssignable, Bool.and_false, List.isEmpty_cons, Bool.false_and]
      using rest

/-- A chain of operands can be assigned to if it is a single one that can. -/
theorem buildsExpression_chain {operand : Node Rule} {links : List (List (Node Rule))}
    (ho : BuildsExpression operand) (each : ∀ link ∈ links, IsLink link) :
    BuildsExpression (.mk .binaryExpression a b text (operand :: links.flatten)) := by
  rw [BuildsExpression, buildExpression, invalidTargets_of_ne (by decide), invalidTargetsIn]
  refine ho.bind fun left assignable => (stopsAt_buildChain each _ left).mono fun e result => ?_
  cases links with
  | nil => exact result.trans assignable
  | cons link links =>
    obtain ⟨⟨operator, operand', rfl, -, -⟩, -⟩ := List.forall_mem_cons.mp each
    exact result

/-- A property or a call after a primary expression. -/
def IsSuffix (node : Node Rule) : Prop :=
  NodeOf .dotProperty (fun children => ∃ name, children = [name] ∧ invalidTargets name = []) node ∨
    NodeOf .callArguments (fun arguments => ∀ argument ∈ arguments, BuildsExpression argument) node

theorem stopsAt_buildSuffixes {suffixes : List (Node Rule)}
    (each : ∀ suffix ∈ suffixes, IsSuffix suffix) (base : Expression) :
    (buildSuffixes base suffixes).StopsAt (invalidTargetsIn suffixes) fun e =>
      e.isAssignable = match suffixes.getLast? with
        | none => base.isAssignable
        | some last => last.rule == .dotProperty := by
  induction suffixes generalizing base with
  | nil =>
    rw [buildSuffixes]
    exact .pure rfl
  | cons suffix rest ih =>
    obtain ⟨here, further⟩ := List.forall_mem_cons.mp each
    rw [invalidTargetsIn]
    obtain ⟨a, b, text, _, rfl, name, rfl, none⟩ | ⟨a, b, text, arguments, rfl, built⟩ := here
    · rw [buildSuffixes, invalidTargets_of_ne (by decide), invalidTargetsIn, none]
      refine (ih further _).mono fun e result => ?_
      cases rest with
      | nil => exact result
      | cons _ _ => exact result
    · rw [buildSuffixes, invalidTargets_of_ne (by decide)]
      refine (stopsAt_buildExpressions built).bind fun _ _ => (ih further _).mono fun e result => ?_
      cases rest with
      | nil => exact result
      | cons _ _ => exact result

theorem buildsExpression_member {primary : Node Rule} {suffixes : List (Node Rule)}
    (hp : BuildsExpression primary) (each : ∀ suffix ∈ suffixes, IsSuffix suffix) :
    BuildsExpression (.mk .memberExpression a b text (primary :: suffixes)) := by
  rw [BuildsExpression, buildExpression, invalidTargets_of_ne (by decide), invalidTargetsIn]
  refine hp.bind fun base assignable => (stopsAt_buildSuffixes each base).mono fun e result => ?_
  cases suffixes with
  | nil => exact result.trans assignable
  | cons suffix rest =>
    obtain ⟨last, ends⟩ : ∃ last, (suffix :: rest).getLast? = some last :=
      ⟨_, List.getLast?_eq_some_getLast (List.cons_ne_nil suffix rest)⟩
    rw [result, isTarget, ends]
    · rfl
    · exact fun nil => nomatch nil

/-- A property of an object literal. -/
def IsProperty : Node Rule → Prop :=
  NodeOf .propertyDefinition fun children =>
    ∃ key value, children = [key, value] ∧ IsKey key ∧ BuildsExpression value

theorem stopsAt_buildProperties {properties : List (Node Rule)}
    (each : ∀ property ∈ properties, IsProperty property) :
    (buildProperties properties).StopsAt (invalidTargetsIn properties) fun _ => True := by
  induction properties with
  | nil =>
    rw [buildProperties]
    exact .pure trivial
  | cons property rest ih =>
    obtain ⟨⟨a, b, text, _, rfl, key, value, rfl, hk, hv⟩, further⟩ := List.forall_mem_cons.mp each
    rw [buildProperties, invalidTargetsIn, invalidTargets_of_ne (by decide)]
    simp only [invalidTargetsIn, hk.invalidTargets_eq, List.nil_append, List.append_nil]
    refine hk.stopsAt_buildKey.bind fun _ _ => ?_
    exact hv.bind fun _ _ => (ih further).bind_pure fun _ _ => trivial

theorem buildsExpression_object {properties : List (Node Rule)}
    (each : ∀ property ∈ properties, IsProperty property) :
    BuildsExpression (.mk .objectLiteral a b text properties) := by
  rw [BuildsExpression, buildExpression, invalidTargets_of_ne (by decide)]
  exact (stopsAt_buildProperties each).bind_pure fun _ _ => rfl

theorem buildsExpression_array {elements : List (Node Rule)}
    (each : ∀ element ∈ elements, BuildsExpression element) :
    BuildsExpression (.mk .arrayLiteral a b text elements) := by
  rw [BuildsExpression, buildExpression, invalidTargets_of_ne (by decide)]
  exact (stopsAt_buildExpressions each).bind_pure fun _ _ => rfl

end Expressions

/-! ## Statements -/

section Statements

variable {a b : Nat} {text : List Char}

/-- The end of the text is no statement. -/
theorem BuildsStatement.rule_ne {node : Node Rule} (h : BuildsStatement node) :
    node.rule ≠ .endOfInput := by
  obtain ⟨r, a, b, text, children⟩ := node
  rintro ⟨⟩
  refine Build.StopsAt.ne_malformed h 9 (.mk .endOfInput a b text children) ?_
  simp [statementState, Node.rule]

/-- The statements of a list, where the node for the end of the text is skipped. -/
theorem stopsAt_buildStatements {nodes : List (Node Rule)}
    (each : ∀ node ∈ nodes, BuildsStatement node ∨ IsWord .endOfInput node) :
    (buildStatements nodes).StopsAt (invalidTargetsIn nodes) fun _ => True := by
  induction nodes with
  | nil =>
    rw [buildStatements]
    exact .pure trivial
  | cons node rest ih =>
    obtain ⟨here, further⟩ := List.forall_mem_cons.mp each
    rw [invalidTargetsIn]
    rcases here with statement | ended
    · rw [buildStatements]
      · exact statement.bind fun _ _ => (ih further).bind_pure fun _ _ => trivial
      · rintro a b text children rfl
        exact statement.rule_ne rfl
    · obtain ⟨r, a, b, text, children⟩ := node
      obtain rfl : r = .endOfInput := ended.rule_eq
      rw [buildStatements, ended.invalidTargets_eq]
      exact ih further

/-- A list of statements as the children of a node, such as the body of a function. -/
theorem stopsAt_buildStatements_of_forall {nodes : List (Node Rule)}
    (each : ∀ node ∈ nodes, BuildsStatement node) :
    (buildStatements nodes).StopsAt (invalidTargetsIn nodes) fun _ => True :=
  stopsAt_buildStatements fun node mem => Or.inl (each node mem)

theorem invalidTargets_functionBody (body : List (Node Rule)) :
    invalidTargets (.mk .functionBody a b text body) = invalidTargetsIn body :=
  invalidTargets_of_ne (by decide) a b text body

/-- The body of a function. -/
def IsBody : Node Rule → Prop :=
  NodeOf .functionBody fun body => ∀ s ∈ body, BuildsStatement s

/-- A function stops in its body; going into the array stops nothing. -/
theorem stopsAt_addFunction {α : Type} {body : List (Node Rule)} {ensures : α → Prop}
    (each : ∀ s ∈ body, BuildsStatement s) (define : List Statement → FunctionDefinition)
    {use : FunctionId → α} (ensured : ∀ id, ensures (use id)) :
    Build.StopsAt (do
        let body ← buildStatements body
        return use (← Build.addFunction (define body)))
      (invalidTargetsIn body) ensures :=
  (stopsAt_buildStatements_of_forall each).bind_nil fun _ _ =>
    (Build.StopsAt.addFunction _).bind_pure fun id _ => ensured id

theorem buildsExpression_function {word parameters body : Node Rule}
    (hw : invalidTargets word = []) (hp : invalidTargets parameters = []) (hb : IsBody body) :
    BuildsExpression (.mk .functionExpression a b text [word, parameters, body]) := by
  obtain ⟨c, d, text', statements, rfl, each⟩ := hb
  rw [BuildsExpression, buildExpression, invalidTargets_of_ne (by decide)]
  simp only [invalidTargetsIn, hw, hp, invalidTargets_functionBody, List.nil_append,
    List.append_nil]
  exact stopsAt_addFunction each _ fun _ => rfl

theorem buildsExpression_namedFunction {word name parameters body : Node Rule}
    (hw : invalidTargets word = []) (hn : invalidTargets name = [])
    (hp : invalidTargets parameters = []) (hb : IsBody body) :
    BuildsExpression (.mk .functionExpression a b text [word, name, parameters, body]) := by
  obtain ⟨c, d, text', statements, rfl, each⟩ := hb
  rw [BuildsExpression, buildExpression, invalidTargets_of_ne (by decide)]
  simp only [invalidTargetsIn, hw, hn, hp, invalidTargets_functionBody, List.nil_append,
    List.append_nil]
  exact stopsAt_addFunction each _ fun _ => rfl

theorem buildsStatement_function {word name parameters body : Node Rule}
    (hw : invalidTargets word = []) (hn : invalidTargets name = [])
    (hp : invalidTargets parameters = []) (hb : IsBody body) :
    BuildsStatement (.mk .functionDeclaration a b text [word, name, parameters, body]) := by
  obtain ⟨c, d, text', statements, rfl, each⟩ := hb
  rw [BuildsStatement, buildStatement, invalidTargets_of_ne (by decide)]
  simp only [invalidTargetsIn, hw, hn, hp, invalidTargets_functionBody, List.nil_append,
    List.append_nil]
  exact stopsAt_addFunction each _ fun _ => trivial

/-- A variable of a declaration, with or without a first value. -/
def IsDeclarator : Node Rule → Prop :=
  NodeOf .variableDeclaration fun children =>
    ∃ name, invalidTargets name = [] ∧
      (children = [name] ∨ ∃ init, children = [name, init] ∧ BuildsExpression init)

theorem stopsAt_buildDeclarators {declarators : List (Node Rule)}
    (each : ∀ declarator ∈ declarators, IsDeclarator declarator) :
    (buildDeclarators declarators).StopsAt (invalidTargetsIn declarators) fun _ => True := by
  induction declarators with
  | nil =>
    rw [buildDeclarators]
    exact .pure trivial
  | cons declarator rest ih =>
    obtain ⟨⟨a, b, text, _, rfl, name, hn, here⟩, further⟩ := List.forall_mem_cons.mp each
    rw [invalidTargetsIn]
    rcases here with rfl | ⟨init, rfl, hi⟩
    · rw [buildDeclarators, invalidTargets_of_ne (by decide)]
      simp only [invalidTargetsIn, hn, List.nil_append, List.append_nil]
      exact (ih further).bind_pure fun _ _ => trivial
    · rw [buildDeclarators, invalidTargets_of_ne (by decide)]
      simp only [invalidTargetsIn, hn, List.nil_append, List.append_nil]
      exact hi.bind fun _ _ => (ih further).bind_pure fun _ _ => trivial

theorem buildsStatement_variables {kind : Node Rule} {declarators : List (Node Rule)}
    (hk : IsWord .variableKind kind)
    (each : ∀ declarator ∈ declarators, IsDeclarator declarator) :
    BuildsStatement (.mk .variableStatement a b text (kind :: declarators)) := by
  rw [BuildsStatement, buildStatement, invalidTargets_of_ne (by decide), invalidTargetsIn,
    hk.invalidTargets_eq]
  refine hk.stopsAt_buildKind.bind fun _ _ => ?_
  exact (stopsAt_buildDeclarators each).bind_pure fun _ _ => trivial

theorem buildsStatement_if {word test consequent : Node Rule} (hw : invalidTargets word = [])
    (ht : BuildsExpression test) (hc : BuildsStatement consequent) :
    BuildsStatement (.mk .ifStatement a b text [word, test, consequent]) := by
  rw [BuildsStatement, buildStatement, invalidTargets_of_ne (by decide)]
  simp only [invalidTargetsIn, hw, List.nil_append, List.append_nil]
  exact ht.bind fun _ _ => hc.bind_pure fun _ _ => trivial

theorem buildsStatement_ifElse {word test consequent other alternate : Node Rule}
    (hw : invalidTargets word = []) (ht : BuildsExpression test) (hc : BuildsStatement consequent)
    (ho : invalidTargets other = []) (ha : BuildsStatement alternate) :
    BuildsStatement (.mk .ifStatement a b text [word, test, consequent, other, alternate]) := by
  rw [BuildsStatement, buildStatement, invalidTargets_of_ne (by decide)]
  simp only [invalidTargetsIn, hw, ho, List.nil_append, List.append_nil]
  exact ht.bind fun _ _ => hc.bind fun _ _ => ha.bind_pure fun _ _ => trivial

theorem buildsStatement_while {word test body : Node Rule} (hw : invalidTargets word = [])
    (ht : BuildsExpression test) (hb : BuildsStatement body) :
    BuildsStatement (.mk .whileStatement a b text [word, test, body]) := by
  rw [BuildsStatement, buildStatement, invalidTargets_of_ne (by decide)]
  simp only [invalidTargetsIn, hw, List.nil_append, List.append_nil]
  exact ht.bind fun _ _ => hb.bind_pure fun _ _ => trivial

/-- An expression that may be left out. -/
def IsOptional (nodes : List (Node Rule)) : Prop :=
  nodes = [] ∨ ∃ node, nodes = [node] ∧ BuildsExpression node

theorem IsOptional.stopsAt_buildOptional {nodes : List (Node Rule)} (h : IsOptional nodes) :
    (buildOptional nodes).StopsAt (invalidTargetsIn nodes) fun _ => True := by
  obtain rfl | ⟨node, rfl, hn⟩ := h
  · rw [buildOptional]
    exact .pure trivial
  · rw [buildOptional, invalidTargetsIn, invalidTargetsIn, List.append_nil]
    exact hn.bind_pure fun _ _ => trivial

/-- A name that opens a declaration is no expression. -/
theorem BuildsExpression.rule_ne {node : Node Rule} (h : BuildsExpression node) :
    node.rule ≠ .variableKind := by
  obtain ⟨r, a, b, text, children⟩ := node
  rintro ⟨⟩
  refine Build.StopsAt.ne_malformed h 27 (.mk .variableKind a b text children) ?_
  simp [expressionState, Node.rule]

/-- What stands before the first semicolon in the head of a counting loop. -/
def IsLoopStart (nodes : List (Node Rule)) : Prop :=
  IsOptional nodes ∨ ∃ kind declarators, nodes = kind :: declarators ∧
    IsWord .variableKind kind ∧ ∀ declarator ∈ declarators, IsDeclarator declarator

theorem IsLoopStart.stopsAt_buildLoopStart {nodes : List (Node Rule)} (h : IsLoopStart nodes)
    (span : Span) :
    (buildLoopStart span nodes).StopsAt (invalidTargetsIn nodes) fun _ => True := by
  obtain (rfl | ⟨node, rfl, hn⟩) | ⟨kind, declarators, rfl, hk, each⟩ := h
  · rw [buildLoopStart]
    exact .pure trivial
  · rw [buildLoopStart]
    · simp only [invalidTargetsIn, List.append_nil]
      exact hn.bind_pure fun _ _ => trivial
    · rintro a b text children rfl
      exact hn.rule_ne rfl
  · obtain ⟨r, a, b, text, children⟩ := kind
    obtain rfl : r = .variableKind := hk.rule_eq
    rw [buildLoopStart, invalidTargetsIn, hk.invalidTargets_eq]
    refine hk.stopsAt_buildKind.bind fun _ _ => ?_
    exact (stopsAt_buildDeclarators each).bind_pure fun _ _ => trivial

theorem buildsStatement_for {word start test update body : Node Rule}
    (hw : invalidTargets word = []) (hs : NodeOf .forInit IsLoopStart start)
    (ht : NodeOf .forTest IsOptional test) (hu : NodeOf .forUpdate IsOptional update)
    (hb : BuildsStatement body) :
    BuildsStatement (.mk .forStatement a b text [word, start, test, update, body]) := by
  obtain ⟨a₁, b₁, text₁, start, rfl, hs⟩ := hs
  obtain ⟨a₂, b₂, text₂, test, rfl, ht⟩ := ht
  obtain ⟨a₃, b₃, text₃, update, rfl, hu⟩ := hu
  rw [BuildsStatement, buildStatement, invalidTargets_of_ne (by decide)]
  simp only [invalidTargetsIn, hw, invalidTargets_of_ne (show Rule.forInit ≠ _ by decide),
    invalidTargets_of_ne (show Rule.forTest ≠ _ by decide),
    invalidTargets_of_ne (show Rule.forUpdate ≠ _ by decide), List.nil_append, List.append_nil]
  refine (hs.stopsAt_buildLoopStart _).bind fun _ _ => ?_
  refine ht.stopsAt_buildOptional.bind fun _ _ => hu.stopsAt_buildOptional.bind fun _ _ => ?_
  exact hb.bind_pure fun _ _ => trivial

theorem buildsStatement_return {word : Node Rule} {argument : List (Node Rule)}
    (hw : invalidTargets word = []) (ha : IsOptional argument) :
    BuildsStatement (.mk .returnStatement a b text (word :: argument)) := by
  rw [BuildsStatement, buildStatement, invalidTargets_of_ne (by decide), invalidTargetsIn, hw]
  exact ha.stopsAt_buildOptional.bind_pure fun _ _ => trivial

theorem buildsStatement_block {body : List (Node Rule)} (each : ∀ s ∈ body, BuildsStatement s) :
    BuildsStatement (.mk .blockStatement a b text body) := by
  rw [BuildsStatement, buildStatement, invalidTargets_of_ne (by decide)]
  exact (stopsAt_buildStatements_of_forall each).bind_pure fun _ _ => trivial

theorem buildsStatement_empty : BuildsStatement (.mk .emptyStatement a b text []) := by
  rw [BuildsStatement, buildStatement, invalidTargets_of_ne (by decide)]
  exact .pure trivial

theorem buildsStatement_expression {e : Node Rule} (he : BuildsExpression e) :
    BuildsStatement (.mk .expressionStatement a b text [e]) := by
  rw [BuildsStatement, buildStatement, invalidTargets_of_ne (by decide)]
  simp only [invalidTargetsIn, List.append_nil]
  exact he.bind_pure fun _ _ => trivial

end Statements

end ScriptTrace
