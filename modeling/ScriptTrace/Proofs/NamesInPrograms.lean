import ScriptTrace.Proofs.Names
import ScriptTrace.Proofs.Outline
import ScriptTrace.Proofs.SourceStretches

/-!
# The names of a program

The names of a program come from nodes of the rules for names, and the text of such a node is a name
that its rule admits.  So no name that a parsed program reads, calls, declares, assigns, or has for
a parameter or a function is a reserved word.  Names of properties can be reserved words.

To say this of all names at once, a declared or assigned name counts as an expression here, and so
does the property that an assignment goes to: the *terms* of a program are all its expressions with
these.

The builders do not ask which rule a node for a name belongs to, so this takes both what the grammar
says of the children of a node (`shape_of_grown`) and a walk through the builders.

* `Expression.terms`, `Statement.terms`, `Program.terms`: the terms.
* `WellNamed`: the names among some terms are spelled as names.
* `Build.NamesWell`: builders whose terms are so.
* `named_of_grown`: every node of a match is built so.
* `wellNamed_of_parseScript`: the terms of a parsed program.
* `nameRules_take_longestName`: what the rules for names and reserved words do, and the names of
  parsed programs.
-/

namespace ScriptTrace

open Peg (Node Pattern Place)
open ScriptTrace.Language (grammar reservedWords)

/-! ## Terms -/

mutual

/-- The expressions that an expression is made of, itself among them. -/
def Expression.terms : Expression → List Expression
  | .literal span value => [.literal span value]
  | .identifier name => [.identifier name]
  | .object span properties => .object span properties :: propertyTerms properties
  | .array span elements => .array span elements :: expressionTerms elements
  | .member span base property => .member span base property :: base.terms
  | .assignVariable span target value =>
    .assignVariable span target value :: (.identifier target :: value.terms)
  | .assignMember span targetSpan base property value =>
    .assignMember span targetSpan base property value ::
      (.member targetSpan base property :: base.terms ++ value.terms)
  | .call span callee arguments =>
    .call span callee arguments :: (callee.terms ++ expressionTerms arguments)
  | .function span id => [.function span id]
  | .unary span operator operand => .unary span operator operand :: operand.terms
  | .binary span operator left right =>
    .binary span operator left right :: (left.terms ++ right.terms)

/-- The expressions that some expressions are made of. -/
def expressionTerms : List Expression → List Expression
  | [] => []
  | e :: rest => e.terms ++ expressionTerms rest

/-- The expressions in the properties of an object literal. -/
def propertyTerms : List (Property Expression) → List Expression
  | [] => []
  | ⟨_, _, value⟩ :: rest => value.terms ++ propertyTerms rest

end

/-- The terms of a declared variable: its name, and those of its first value. -/
def Declarator.terms (d : Declarator) : List Expression :=
  .identifier d.name :: d.init.toList.flatMap Expression.terms

/-- The terms of a declaration. -/
def Declaration.terms (d : Declaration) : List Expression :=
  d.declarators.flatMap Declarator.terms

/-- The terms of what stands before the first semicolon in the head of a counting loop. -/
def LoopStart.terms : LoopStart → List Expression
  | .declaration d => d.terms
  | .expression e => e.terms

mutual

/-- The terms of a statement: its expressions, and the names that it declares. -/
def Statement.terms : Statement → List Expression
  | .functionDeclaration _ name _ => [.identifier name]
  | .variables d => d.terms
  | .expression _ e => e.terms
  | .block _ body => statementTerms body
  | .conditional _ test consequent none => test.terms ++ consequent.terms
  | .conditional _ test consequent (some alternate) =>
    test.terms ++ (consequent.terms ++ alternate.terms)
  | .whileLoop _ test body => test.terms ++ body.terms
  | .forLoop _ start test update body =>
    start.toList.flatMap LoopStart.terms ++ (test.toList.flatMap Expression.terms ++
      (update.toList.flatMap Expression.terms ++ body.terms))
  | .returns _ argument => argument.toList.flatMap Expression.terms
  | .empty _ => []

/-- The terms of statements. -/
def statementTerms : List Statement → List Expression
  | [] => []
  | s :: rest => s.terms ++ statementTerms rest

end

/-- The terms of a function: its name, its parameters, and those of its body. -/
def FunctionDefinition.terms (f : FunctionDefinition) : List Expression :=
  (f.name.toList ++ f.parameters).map .identifier ++ statementTerms f.body

/-- The terms of a program: those of its statements and of its functions. -/
def Program.terms (p : Program) : List Expression :=
  statementTerms p.body ++ p.functions.toList.flatMap FunctionDefinition.terms

/-! ## Names -/

/-- The name that an expression is, if it is one. -/
def Expression.name? : Expression → Option Identifier
  | .identifier name => some name
  | _ => none

/-- The names that a program reads, calls, declares or assigns, and those of its functions and their
parameters. -/
def Program.names (p : Program) : List Identifier :=
  p.terms.filterMap Expression.name?

/-- A name is spelled as a name and is not reserved; the name of a property is spelled as a name,
and the names of its object are. -/
def Expression.IsWellNamed : Expression → Prop
  | .identifier name => isName name.name.toList = true ∧ name.name ∉ reservedWords
  | .member _ base property => base.IsWellNamed ∧ isName property.name.toList = true
  | _ => True

/-- All names among some terms are spelled as names. -/
def WellNamed (terms : List Expression) : Prop :=
  ∀ e ∈ terms, e.IsWellNamed

namespace WellNamed

variable {e : Expression} {terms more : List Expression}

theorem nil : WellNamed [] :=
  List.forall_mem_nil _

theorem cons (first : e.IsWellNamed) (others : WellNamed terms) : WellNamed (e :: terms) :=
  List.forall_mem_cons.mpr ⟨first, others⟩

theorem append (first : WellNamed terms) (second : WellNamed more) : WellNamed (terms ++ more) :=
  List.forall_mem_append.mpr ⟨first, second⟩

/-- An expression is the first of its own terms. -/
theorem self (h : WellNamed e.terms) : e.IsWellNamed := by
  refine h e ?_
  cases e <;> simp [Expression.terms]

end WellNamed

section Nodes

variable {source : List Char} {node : Node Rule}

/-- The name that a node spells. -/
theorem isWellNamed_of_grown (grown : node.Grown grammar source)
    (isIdentifier : node.rule = .identifier) :
    (Expression.identifier (buildIdentifier node)).IsWellNamed := by
  obtain ⟨name, admitted⟩ := Language.name_of_grown grown (by rw [isIdentifier]; decide)
  rw [isIdentifier, Language.admits, Bool.and_eq_true, Bool.not_eq_true', Bool.not_eq_true',
    List.contains_eq_mem, decide_eq_false_iff_not] at admitted
  refine ⟨?_, admitted.2⟩
  rw [buildIdentifier, String.toList_ofList]
  exact name

/-- The name of a property that a node spells. -/
theorem isName_of_grown (grown : node.Grown grammar source)
    (isProperty : node.rule = .identifierName) :
    isName (buildIdentifier node).name.toList = true := by
  obtain ⟨name, -⟩ := Language.name_of_grown grown (by rw [isProperty]; decide)
  rw [buildIdentifier, String.toList_ofList]
  exact name

end Nodes

/-! ## Builders -/

/-- All names of some functions are spelled as names. -/
def NamedFunctions (fs : Array FunctionDefinition) : Prop :=
  ∀ f ∈ fs.toList, WellNamed f.terms

namespace Build

variable {α β : Type}

/-- What a builder answers has terms whose names are spelled as names, and so have the functions
after it if those before it had. -/
def NamesWell (x : Build α) (terms : α → List Expression) : Prop :=
  ∀ ⦃fs⦄, NamedFunctions fs → ∀ ⦃a fs'⦄, x fs = .ok (a, fs') →
    WellNamed (terms a) ∧ NamedFunctions fs'

namespace NamesWell

variable {terms : α → List Expression} {terms' : β → List Expression}

theorem pure {a : α} (named : WellNamed (terms a)) : NamesWell (Pure.pure a) terms := by
  intro fs before _ _ built
  cases built
  exact ⟨named, before⟩

theorem throw (error : BuildError) :
    NamesWell (throwThe BuildError error : Build α) terms :=
  fun _ _ _ _ built => nomatch built

theorem bind {x : Build α} {next : α → Build β} (first : NamesWell x terms)
    (each : ∀ a, WellNamed (terms a) → NamesWell (next a) terms') :
    NamesWell (x >>= next) terms' := by
  intro fs before b fs' built
  obtain ⟨a, fs₁, here, further⟩ := run_bind_eq_ok built
  obtain ⟨named, after⟩ := first before here
  exact each a named after further

/-- What only reads the nodes has no terms. -/
theorem of_reads {x : Build α} (reads : x.Reads) : NamesWell x fun _ => [] := by
  intro fs before a fs' built
  rw [reads fs a fs' built]
  exact ⟨.nil, before⟩

theorem addFunction {f : FunctionDefinition} (named : WellNamed f.terms) :
    NamesWell (Build.addFunction f) fun _ => [] := by
  intro fs before id fs' built
  cases built
  refine ⟨.nil, ?_⟩
  rw [NamedFunctions, Array.toList_push]
  exact List.forall_mem_append.mpr ⟨before, List.forall_mem_singleton.mpr named⟩

end NamesWell

end Build

/-! ## What is built from lists of nodes -/

/-- A node of a match from which well named expressions and statements are built, as from the nodes
below it. -/
inductive Named (source : List Char) : Node Rule → Prop
  | intro {node : Node Rule} (grown : node.Grown grammar source)
      (expression : (buildExpression node).NamesWell Expression.terms)
      (statement : (buildStatement node).NamesWell Statement.terms)
      (each : ∀ child ∈ node.children, Named source child) : Named source node

namespace Named

variable {source : List Char} {node : Node Rule}

theorem grown (h : Named source node) : node.Grown grammar source := by
  cases h with
  | intro grown => exact grown

theorem expression (h : Named source node) :
    (buildExpression node).NamesWell Expression.terms := by
  cases h with
  | intro _ expression => exact expression

theorem statement (h : Named source node) : (buildStatement node).NamesWell Statement.terms := by
  cases h with
  | intro _ _ statement => exact statement

theorem each (h : Named source node) : ∀ child ∈ node.children, Named source child := by
  cases h with
  | intro _ _ _ each => exact each

theorem shape (h : Named source node) (outer : node.rule.hasParts = true) :
    (grammar.body node.rule).Leaves Rule.Stands node.children :=
  shape_of_grown h.grown outer

end Named

section Lists

variable {source : List Char} {nodes : List (Node Rule)}

theorem namesWell_buildExpressions (each : ∀ node ∈ nodes, Named source node) :
    (buildExpressions nodes).NamesWell expressionTerms := by
  induction nodes with
  | nil =>
    rw [buildExpressions]
    exact .pure .nil
  | cons node rest ih =>
    obtain ⟨own, others⟩ := List.forall_mem_cons.mp each
    rw [buildExpressions]
    refine own.expression.bind fun e first => (ih others).bind fun es further => .pure ?_
    exact first.append further

/-- The operators and operands of a chain, after what has been built so far. -/
theorem namesWell_buildChain {chain : Node Rule} {left : Expression} (nodes : List (Node Rule))
    (each : ∀ node ∈ nodes, Named source node) (named : WellNamed left.terms) :
    (buildChain chain left nodes).NamesWell Expression.terms := by
  unfold buildChain
  split
  · exact .pure named
  · exact .throw _
  · rename_i operator operand rest
    obtain ⟨-, others⟩ := List.forall_mem_cons.mp each
    obtain ⟨own, others⟩ := List.forall_mem_cons.mp others
    refine (Build.NamesWell.of_reads (reads_buildBinaryOperator operator)).bind fun symbol _ => ?_
    refine own.expression.bind fun right namedRight => ?_
    exact namesWell_buildChain rest others (.cons trivial (named.append namedRight))
termination_by sizeOf nodes

/-- The properties and calls after an expression that has been built. -/
theorem namesWell_buildSuffixes {base : Expression} (nodes : List (Node Rule))
    (each : ∀ node ∈ nodes, Named source node) (named : WellNamed base.terms) :
    (buildSuffixes base nodes).NamesWell Expression.terms := by
  unfold buildSuffixes
  split
  · exact .pure named
  · rename_i name _ rest
    obtain ⟨own, others⟩ := List.forall_mem_cons.mp each
    have isProperty := rule_of_dotProperty (own.shape rfl)
    have property := isName_of_grown (own.each name List.mem_cons_self).grown isProperty
    exact namesWell_buildSuffixes rest others (.cons ⟨named.self, property⟩ named)
  · rename_i rest
    obtain ⟨own, others⟩ := List.forall_mem_cons.mp each
    refine (namesWell_buildExpressions own.each).bind fun es arguments => ?_
    exact namesWell_buildSuffixes rest others (.cons trivial (named.append arguments))
  · exact .throw _
termination_by sizeOf nodes

theorem namesWell_buildProperties (nodes : List (Node Rule))
    (each : ∀ node ∈ nodes, Named source node) :
    (buildProperties nodes).NamesWell propertyTerms := by
  unfold buildProperties
  split
  · exact .pure .nil
  · rename_i key value rest
    obtain ⟨own, others⟩ := List.forall_mem_cons.mp each
    refine (Build.NamesWell.of_reads (reads_buildKey key)).bind fun k _ => ?_
    refine (own.each value (by simp [Node.children])).expression.bind fun e first => ?_
    refine (namesWell_buildProperties rest others).bind fun ps further => .pure ?_
    exact first.append further
  · exact .throw _
termination_by sizeOf nodes

theorem namesWell_buildDeclarators (nodes : List (Node Rule))
    (each : ∀ node ∈ nodes, Named source node) :
    (buildDeclarators nodes).NamesWell fun ds => ds.flatMap Declarator.terms := by
  unfold buildDeclarators
  split
  · exact .pure .nil
  · rename_i name rest
    obtain ⟨own, others⟩ := List.forall_mem_cons.mp each
    have isIdentifier := rule_of_declarator (own.shape rfl)
    have declared := isWellNamed_of_grown (own.each name List.mem_cons_self).grown isIdentifier
    refine (namesWell_buildDeclarators rest others).bind fun ds further => .pure ?_
    rw [List.flatMap_cons]
    exact WellNamed.append (.cons declared .nil) further
  · rename_i name init rest
    obtain ⟨own, others⟩ := List.forall_mem_cons.mp each
    have isIdentifier := rule_of_declarator (own.shape rfl)
    have declared := isWellNamed_of_grown (own.each name List.mem_cons_self).grown isIdentifier
    refine (own.each init (by simp [Node.children])).expression.bind fun e initial => ?_
    refine (namesWell_buildDeclarators rest others).bind fun ds further => .pure ?_
    rw [List.flatMap_cons]
    refine WellNamed.append (.cons declared ?_) further
    rw [Option.toList_some, List.flatMap_singleton]
    exact initial
  · exact .throw _
termination_by sizeOf nodes

theorem namesWell_buildOptional (each : ∀ node ∈ nodes, Named source node) :
    (buildOptional nodes).NamesWell fun e => e.toList.flatMap Expression.terms := by
  cases nodes with
  | nil =>
    rw [buildOptional]
    exact .pure .nil
  | cons node rest =>
    rw [buildOptional]
    refine (each node List.mem_cons_self).expression.bind fun e named => .pure ?_
    rw [Option.toList_some, List.flatMap_singleton]
    exact named

theorem namesWell_buildLoopStart (span : Span) (each : ∀ node ∈ nodes, Named source node) :
    (buildLoopStart span nodes).NamesWell fun l => l.toList.flatMap LoopStart.terms := by
  unfold buildLoopStart
  split
  · exact .pure .nil
  · obtain ⟨-, others⟩ := List.forall_mem_cons.mp each
    refine (Build.NamesWell.of_reads (reads_buildKind _)).bind fun kind _ => ?_
    refine (namesWell_buildDeclarators _ others).bind fun ds named => .pure ?_
    rw [Option.toList_some, List.flatMap_singleton]
    exact named
  · refine (each _ List.mem_cons_self).expression.bind fun e named => .pure ?_
    rw [Option.toList_some, List.flatMap_singleton]
    exact named

theorem namesWell_buildStatements (nodes : List (Node Rule))
    (each : ∀ node ∈ nodes, Named source node) :
    (buildStatements nodes).NamesWell statementTerms := by
  unfold buildStatements
  split
  · exact .pure .nil
  · exact namesWell_buildStatements _ (List.forall_mem_cons.mp each).2
  · obtain ⟨own, others⟩ := List.forall_mem_cons.mp each
    refine own.statement.bind fun s first => ?_
    refine (namesWell_buildStatements _ others).bind fun ss further => .pure ?_
    exact first.append further
termination_by sizeOf nodes

end Lists

/-! ## What is built from one node -/

section Nodes

variable {source : List Char} {node : Node Rule}

/-- A function with its name, if it has one, its parameters and its body. -/
theorem namesWell_function {α : Type} {terms : α → List Expression} (use : FunctionId → α)
    {span : Span} {name : Option Identifier} {parameters body : Node Rule}
    (named : ∀ n ∈ name, (Expression.identifier n).IsWellNamed)
    (isParameters : parameters.rule = .formalParameters) (formal : Named source parameters)
    (statements : Named source body) (used : ∀ id, WellNamed (terms (use id))) :
    Build.NamesWell
      (do
        let body ← buildStatements body.children
        return use (← Build.addFunction
          ⟨span, name, parameters.children.map buildIdentifier, body⟩)) terms := by
  have isIdentifier : ∀ node ∈ parameters.children, node.rule = .identifier := by
    have shape := formal.shape (by rw [isParameters]; rfl)
    rw [isParameters] at shape
    exact rule_of_parameter shape
  refine (namesWell_buildStatements _ statements.each).bind fun ss inside => ?_
  refine Build.NamesWell.bind (.addFunction ?_) fun id _ => .pure (used id)
  refine WellNamed.append ?_ inside
  rintro e mem
  obtain ⟨n, listed, rfl⟩ := List.mem_map.mp mem
  rcases List.mem_append.mp listed with own | formals
  · exact named n (Option.mem_toList.mp own)
  · obtain ⟨child, below, rfl⟩ := List.mem_map.mp formals
    exact isWellNamed_of_grown (formal.each child below).grown (isIdentifier child below)

/-- An expression, if those of the nodes below are well named. -/
theorem namesWell_buildExpression (grown : node.Grown grammar source)
    (each : ∀ child ∈ node.children, Named source child) :
    (buildExpression node).NamesWell Expression.terms := by
  have shape := shape_of_grown grown
  unfold buildExpression
  split
  · -- An assignment: the target is a term as it was built.
    rename_i target value
    obtain ⟨ownTarget, others⟩ := List.forall_mem_cons.mp each
    obtain ⟨ownValue, -⟩ := List.forall_mem_cons.mp others
    refine ownTarget.expression.bind fun e namedTarget => ?_
    split
    · refine ownValue.expression.bind fun v namedValue => .pure ?_
      exact .cons trivial (namedTarget.append namedValue)
    · refine ownValue.expression.bind fun v namedValue => .pure ?_
      exact .cons trivial (namedTarget.append namedValue)
    · exact .throw _
  · -- A chain of operands.
    obtain ⟨own, others⟩ := List.forall_mem_cons.mp each
    exact own.expression.bind fun left named => namesWell_buildChain _ others named
  · -- An operator before an operand.
    rename_i operator operand
    obtain ⟨-, others⟩ := List.forall_mem_cons.mp each
    obtain ⟨own, -⟩ := List.forall_mem_cons.mp others
    refine (Build.NamesWell.of_reads (reads_buildUnaryOperator operator)).bind fun symbol _ => ?_
    refine own.expression.bind fun e named => .pure ?_
    exact .cons trivial named
  · -- Properties and calls.
    obtain ⟨own, others⟩ := List.forall_mem_cons.mp each
    exact own.expression.bind fun base named => namesWell_buildSuffixes _ others named
  · have named := isWellNamed_of_grown grown rfl
    exact .pure (.cons named .nil)
  · refine (Build.NamesWell.of_reads (reads_buildNumeral _)).bind fun x _ => .pure ?_
    exact .cons trivial .nil
  · exact .pure (.cons trivial .nil)
  · exact .pure (.cons trivial .nil)
  · exact .pure (.cons trivial .nil)
  · exact (namesWell_buildProperties _ each).bind fun ps named => .pure (.cons trivial named)
  · exact (namesWell_buildExpressions each).bind fun es named => .pure (.cons trivial named)
  · -- A function without a name.
    have isParameters := rule_of_unnamedFunction (shape rfl)
    obtain ⟨-, others⟩ := List.forall_mem_cons.mp each
    obtain ⟨formal, others⟩ := List.forall_mem_cons.mp others
    obtain ⟨statements, -⟩ := List.forall_mem_cons.mp others
    exact namesWell_function (Expression.function _) (by simp) isParameters formal statements
      fun id => .cons trivial .nil
  · -- A function with a name.
    obtain ⟨isName, isParameters⟩ := rules_of_namedFunction (shape rfl) <| by
      rintro nodes (stands | rfl)
      · exact (stands.visible rfl).forall_mem
      · exact List.forall_mem_nil _
    obtain ⟨-, others⟩ := List.forall_mem_cons.mp each
    obtain ⟨own, others⟩ := List.forall_mem_cons.mp others
    obtain ⟨formal, others⟩ := List.forall_mem_cons.mp others
    obtain ⟨statements, -⟩ := List.forall_mem_cons.mp others
    have named := isWellNamed_of_grown own.grown isName
    exact namesWell_function (Expression.function _) (fun _ same => Option.some.inj same ▸ named)
      isParameters formal statements fun id => .cons trivial .nil
  · exact .throw _

/-- A statement, if the expressions and statements of the nodes below are well named. -/
theorem namesWell_buildStatement (grown : node.Grown grammar source)
    (each : ∀ child ∈ node.children, Named source child) :
    (buildStatement node).NamesWell Statement.terms := by
  have shape := shape_of_grown grown
  unfold buildStatement
  split
  · -- The declaration of a function.
    obtain ⟨isName, isParameters⟩ := rules_of_namedFunction (shape rfl)
      fun nodes stands => (stands.visible rfl).forall_mem
    obtain ⟨-, others⟩ := List.forall_mem_cons.mp each
    obtain ⟨own, others⟩ := List.forall_mem_cons.mp others
    obtain ⟨formal, others⟩ := List.forall_mem_cons.mp others
    obtain ⟨statements, -⟩ := List.forall_mem_cons.mp others
    have named := isWellNamed_of_grown own.grown isName
    exact namesWell_function (Statement.functionDeclaration _ _)
      (fun _ same => Option.some.inj same ▸ named) isParameters formal statements
      fun id => .cons named .nil
  · -- The declaration of variables.
    obtain ⟨-, others⟩ := List.forall_mem_cons.mp each
    refine (Build.NamesWell.of_reads (reads_buildKind _)).bind fun kind _ => ?_
    exact (namesWell_buildDeclarators _ others).bind fun ds named => .pure named
  · -- A conditional without an alternative.
    obtain ⟨-, others⟩ := List.forall_mem_cons.mp each
    obtain ⟨test, others⟩ := List.forall_mem_cons.mp others
    obtain ⟨consequent, -⟩ := List.forall_mem_cons.mp others
    refine test.expression.bind fun e namedTest => ?_
    refine consequent.statement.bind fun s namedConsequent => .pure ?_
    exact namedTest.append namedConsequent
  · -- A conditional with an alternative.
    obtain ⟨-, others⟩ := List.forall_mem_cons.mp each
    obtain ⟨test, others⟩ := List.forall_mem_cons.mp others
    obtain ⟨consequent, others⟩ := List.forall_mem_cons.mp others
    obtain ⟨-, others⟩ := List.forall_mem_cons.mp others
    obtain ⟨alternate, -⟩ := List.forall_mem_cons.mp others
    refine test.expression.bind fun e namedTest => ?_
    refine consequent.statement.bind fun s namedConsequent => ?_
    refine alternate.statement.bind fun t namedAlternate => .pure ?_
    exact namedTest.append (namedConsequent.append namedAlternate)
  · -- A loop with a test.
    obtain ⟨-, others⟩ := List.forall_mem_cons.mp each
    obtain ⟨test, others⟩ := List.forall_mem_cons.mp others
    obtain ⟨body, -⟩ := List.forall_mem_cons.mp others
    refine test.expression.bind fun e namedTest => ?_
    exact body.statement.bind fun s namedBody => .pure (namedTest.append namedBody)
  · -- A counting loop.
    obtain ⟨-, others⟩ := List.forall_mem_cons.mp each
    obtain ⟨start, others⟩ := List.forall_mem_cons.mp others
    obtain ⟨test, others⟩ := List.forall_mem_cons.mp others
    obtain ⟨update, others⟩ := List.forall_mem_cons.mp others
    obtain ⟨body, -⟩ := List.forall_mem_cons.mp others
    refine (namesWell_buildLoopStart _ start.each).bind fun l namedStart => ?_
    refine (namesWell_buildOptional test.each).bind fun t namedTest => ?_
    refine (namesWell_buildOptional update.each).bind fun u namedUpdate => ?_
    refine body.statement.bind fun s namedBody => .pure ?_
    exact namedStart.append (namedTest.append (namedUpdate.append namedBody))
  · obtain ⟨-, others⟩ := List.forall_mem_cons.mp each
    exact (namesWell_buildOptional others).bind fun e named => .pure named
  · exact (namesWell_buildStatements _ each).bind fun ss named => .pure named
  · exact .pure .nil
  · obtain ⟨own, -⟩ := List.forall_mem_cons.mp each
    exact own.expression.bind fun e named => .pure named
  · exact .throw _

/-- **Every node of a match is built with well named terms.**  The induction is on its
derivation. -/
theorem named_of_grown (grown : node.Grown grammar source) : Named source node := by
  induction grown with
  | mk start kept body each ih =>
    have grown := Node.Grown.mk start kept body each
    exact .intro grown (namesWell_buildExpression grown ih) (namesWell_buildStatement grown ih) ih

end Nodes

/-! ## Programs -/

/-- **The terms of a parsed program are well named.** -/
theorem wellNamed_of_parseScript {source : String} {program : Program}
    (parsed : parseScript source = .ok program) : WellNamed program.terms := by
  obtain ⟨node, rest, q, matched, built⟩ := exists_node_of_parseScript parsed
  have start : Place.Of source.toList ⟨0, source.toList⟩ := ⟨[], .refl _⟩
  have grown := (Peg.Grammar.matches_of_read matched).grown start node List.mem_cons_self
  have none : NamedFunctions #[] := fun f mem => nomatch mem
  obtain ⟨body, functions⟩ :=
    namesWell_buildStatements _ (named_of_grown grown).each none built
  refine body.append fun e mem => ?_
  obtain ⟨f, there, inside⟩ := List.mem_flatMap.mp mem
  exact functions f there e inside

/-- **The rules for names take the longest name at a place, if they admit it, and no name of a
program is reserved.**  The rule for property names admits every name, the rule for names those that
are not reserved, and a rule for reserved words its own words. -/
theorem nameRules_take_longestName :
    (∀ text, IsLongestName text (leadingName text)) ∧
      (∀ r ∈ Language.nameRules, ∀ (mode : Peg.Mode) (p : Place),
        let m := leadingName p.rest
        let q := p.advance m (p.rest.drop m.length)
        grammar.Gives mode (.rule r) p
          (if Language.admits r m then
            .matched (grammar.nodesOf mode r p.offset q.offset m []) q
          else .failed)) ∧
      ∀ (source : String) (program : Program), parseScript source = .ok program →
        ∀ name ∈ program.names, isName name.name.toList = true ∧ name.name ∉ reservedWords := by
  refine ⟨isLongestName_leadingName, fun r mem => Language.gives_nameRule mem, ?_⟩
  intro source program parsed name mem
  obtain ⟨e, listed, isName⟩ := List.mem_filterMap.mp mem
  have named := wellNamed_of_parseScript parsed e listed
  cases e with
  | identifier own =>
    cases isName
    exact named
  | _ => exact nomatch isName

/-- A script whose names begin with reserved words, with a reserved word for a property. -/
def lookalikeScript : String :=
  "let iff=newtrue.if"

/-- The script has two names, and neither is reserved. -/
theorem names_of_lookalikeScript :
    ∃ program, parseScript lookalikeScript = .ok program ∧
      program.names = [⟨"iff", ⟨4, 7⟩⟩, ⟨"newtrue", ⟨8, 15⟩⟩] ∧
      ∀ name ∈ program.names, isName name.name.toList = true ∧ name.name ∉ reservedWords := by
  obtain ⟨program, parsed, names⟩ := exists_ok_of_toOption_map (by decide +kernel :
    (parseScript lookalikeScript).toOption.map Program.names =
      some [⟨"iff", ⟨4, 7⟩⟩, ⟨"newtrue", ⟨8, 15⟩⟩])
  exact ⟨program, parsed, names, nameRules_take_longestName.2.2 _ _ parsed⟩

end ScriptTrace
