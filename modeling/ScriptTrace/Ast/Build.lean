import ScriptTrace.Ast.Basic
import ScriptTrace.Ast.StringLiteral
import ScriptTrace.Language.Table
import ScriptTrace.Number.Numeral

/-!
# From matched trees to syntax trees

The tree of a match still has a node for every rule; building keeps what has a meaning.  Parentheses
and chains of a single operand vanish, a chain of operators becomes nested operations from left to
right, and a chain of properties and calls becomes nested expressions.

A function is put at the end of the array of functions once its body has been built, so that an
inner function stands before the one that contains it.

The only error for a tree that the grammar gives is an assignment to something that cannot be
assigned to.  A target is built before it is checked, and checked before the right side is built.
For any other tree the error tells by a number which part was missing or not known
(`expressionState`, `statementState`).

* `BuildError`: why a tree has no syntax tree.
* `Build`: building with the array of functions.
* `buildExpression`, `buildStatement`: the syntax trees.
* `Program.ofNode`: the program of a whole script.
-/

namespace ScriptTrace

open Peg (Node)

/-- The stretch of a node. -/
def nodeSpan (node : Node Rule) : Span :=
  ⟨node.start, node.stop⟩

/-- Why a matched tree has no syntax tree. -/
inductive BuildError where
  /-- The target of an assignment is neither a name nor a property. -/
  | invalidTarget (span : Span)
  /-- A numeral spells no number. -/
  | invalidNumeral (span : Span) (text : String)
  /-- The node is not one that the grammar gives; the number is that of the state reached. -/
  | malformed (span : Span) (rule : Rule) (state : Nat)
  /-- There is no tree at all; the offset is that of the end of the text. -/
  | unexpectedEnd (offset : Nat)
  deriving DecidableEq, Repr

namespace BuildError

/-- The stretch that an error is about. -/
def span : BuildError → Span
  | .invalidTarget s | .invalidNumeral s _ | .malformed s _ _ => s
  | .unexpectedEnd offset => ⟨offset, offset⟩

/-- What an error says. -/
def message : BuildError → String
  | .invalidTarget _ => "Invalid left-hand side in assignment"
  | .invalidNumeral _ text => "Invalid numeric literal '" ++ text ++ "'"
  | .malformed _ rule state =>
    "Unexpected state reached [" ++ rule.name ++ "] - " ++ toString state
  | .unexpectedEnd _ => "Unexpected end of input"

end BuildError

/-- Building, with the array of the functions built so far. -/
abbrev Build := StateT (Array FunctionDefinition) (Except BuildError)

namespace Build

/-- The error for a node that the grammar does not give, in a state. -/
def malformed {α : Type} (state : Nat) (node : Node Rule) : Build α :=
  throw (.malformed (nodeSpan node) node.rule state)

/-- Puts a function at the end of the array and answers its index. -/
def addFunction (f : FunctionDefinition) : Build FunctionId := do
  let functions ← get
  set (functions.push f)
  return functions.size

end Build

/-! ## Missing parts -/

/-- The children of a node other than its keywords. -/
def significantChildren (node : Node Rule) : List (Node Rule) :=
  node.children.filter fun child => !child.rule.isKeyword

/-- The state in which a node turns out to be no expression: at its first missing part, or else at
its rule. -/
def expressionState (node : Node Rule) : Nat :=
  match node.rule, significantChildren node with
  | .assignmentExpression, [] => 20
  | .assignmentExpression, [_] => 21
  | .prefixExpression, [] => 22
  | .prefixExpression, [_] => 24
  | .functionExpression, [] => 25
  | .functionExpression, [part] => if part.rule = .identifier then 25 else 26
  | .functionExpression, [_, _] => 26
  | .binaryExpression, [] => 30
  | .memberExpression, [] => 40
  | _, _ => 27

/-- The state in which a node turns out to be no statement: at its first missing part, or else at
its rule. -/
def statementState (node : Node Rule) : Nat :=
  let present := (significantChildren node).length
  match node.rule with
  | .functionDeclaration => 1 + present
  | .ifStatement => 4 + present
  | .whileStatement => 6 + present
  | .expressionStatement => 8
  | .variableStatement => 10
  | .forStatement => 13 + present
  | _ => 9

/-! ## Leaves -/

/-- The name that a node spells. -/
def buildIdentifier (node : Node Rule) : Identifier :=
  ⟨String.ofList node.text, nodeSpan node⟩

/-- The number that a node spells. -/
def buildNumeral (node : Node Rule) : Build Number :=
  match Number.ofNumeral? node.text with
  | some x => return x
  | none => throw (.invalidNumeral (nodeSpan node) (String.ofList node.text))

/-- The text that a string literal spells. -/
def buildString (node : Node Rule) : String :=
  match node.children with
  | [] => ""
  | chars :: _ => String.ofList (unescape chars.text)

/-- The kind of declaration that a word opens. -/
def buildKind (node : Node Rule) : Build DeclarationKind :=
  match DeclarationKind.ofWord? (String.ofList node.text) with
  | some kind => return kind
  | none => Build.malformed 60 node

/-- The operator that a node spells, before an operand. -/
def buildUnaryOperator (node : Node Rule) : Build UnaryOperator :=
  match UnaryOperator.ofSymbol? (String.ofList node.text) with
  | some operator => return operator
  | none => Build.malformed 23 node

/-- The operator that a node spells, between operands. -/
def buildBinaryOperator (node : Node Rule) : Build BinaryOperator :=
  match BinaryOperator.ofSymbol? (String.ofList node.text) with
  | some operator => return operator
  | none => Build.malformed 61 node

/-- The key of a property. -/
def buildKey (node : Node Rule) : Build PropertyKey :=
  match node.rule with
  | .identifierName => return .name (String.ofList node.text)
  | .stringLiteral => return .str (buildString node)
  | .numericLiteral => return .num (← buildNumeral node)
  | _ => Build.malformed 51 node

/-! ## Expressions and statements -/

mutual

/-- The expression of a node. -/
def buildExpression : Node Rule → Build Expression
  | .mk .assignmentExpression a b _ [target, value] => do
    match ← buildExpression target with
    | .identifier name => return .assignVariable ⟨a, b⟩ name (← buildExpression value)
    | .member span base property =>
      return .assignMember ⟨a, b⟩ span base property (← buildExpression value)
    | _ => throw (.invalidTarget (nodeSpan target))
  | .mk .binaryExpression a b text (operand :: rest) => do
    buildChain (.mk .binaryExpression a b text (operand :: rest)) (← buildExpression operand) rest
  | .mk .prefixExpression a b _ [operator, operand] => do
    let operator ← buildUnaryOperator operator
    return .unary ⟨a, b⟩ operator (← buildExpression operand)
  | .mk .memberExpression _ _ _ (primary :: suffixes) => do
    buildSuffixes (← buildExpression primary) suffixes
  | .mk .identifier a b text _ => return .identifier ⟨String.ofList text, ⟨a, b⟩⟩
  | .mk .numericLiteral a b text ks => do
    return .literal ⟨a, b⟩ (.num (← buildNumeral (.mk .numericLiteral a b text ks)))
  | .mk .stringLiteral a b text ks =>
    return .literal ⟨a, b⟩ (.str (buildString (.mk .stringLiteral a b text ks)))
  | .mk .booleanLiteral a b text _ => return .literal ⟨a, b⟩ (.bool (text = "true".toList))
  | .mk .nullLiteral a b _ _ => return .literal ⟨a, b⟩ .null
  | .mk .objectLiteral a b _ properties => return .object ⟨a, b⟩ (← buildProperties properties)
  | .mk .arrayLiteral a b _ elements => return .array ⟨a, b⟩ (← buildExpressions elements)
  | .mk .functionExpression a b _ [_, parameters, .mk _ _ _ _ body] => do
    let body ← buildStatements body
    return .function ⟨a, b⟩ (← Build.addFunction
      ⟨⟨a, b⟩, none, parameters.children.map buildIdentifier, body⟩)
  | .mk .functionExpression a b _ [_, name, parameters, .mk _ _ _ _ body] => do
    let body ← buildStatements body
    return .function ⟨a, b⟩ (← Build.addFunction
      ⟨⟨a, b⟩, some (buildIdentifier name), parameters.children.map buildIdentifier, body⟩)
  | node => Build.malformed (expressionState node) node

/-- The expressions of nodes, in order. -/
def buildExpressions : List (Node Rule) → Build (List Expression)
  | [] => return []
  | node :: rest => do
    let e ← buildExpression node
    return e :: (← buildExpressions rest)

/-- The operations of a chain, from left to right: every operator joins what has been built so far
with the operand after it. -/
def buildChain (chain : Node Rule) (left : Expression) : List (Node Rule) → Build Expression
  | [] => return left
  | [_] => Build.malformed 31 chain
  | operator :: operand :: rest => do
    let operator ← buildBinaryOperator operator
    let right ← buildExpression operand
    buildChain chain (.binary ⟨left.span.start, right.span.stop⟩ operator left right) rest

/-- The properties and calls after a primary expression, from left to right. -/
def buildSuffixes (base : Expression) : List (Node Rule) → Build Expression
  | [] => return base
  | .mk .dotProperty _ b _ (name :: _) :: rest =>
    buildSuffixes (.member ⟨base.span.start, b⟩ base (buildIdentifier name)) rest
  | .mk .callArguments _ b _ arguments :: rest => do
    let arguments ← buildExpressions arguments
    buildSuffixes (.call ⟨base.span.start, b⟩ base arguments) rest
  | node :: _ => Build.malformed (if node.rule = .dotProperty then 41 else 42) node

/-- The properties of an object literal. -/
def buildProperties : List (Node Rule) → Build (List (Property Expression))
  | [] => return []
  | .mk _ a b _ [key, value] :: rest => do
    let key ← buildKey key
    let value ← buildExpression value
    return ⟨⟨a, b⟩, key, value⟩ :: (← buildProperties rest)
  | node :: _ => Build.malformed (if node.children.isEmpty then 50 else 52) node

/-- The variables of a declaration. -/
def buildDeclarators : List (Node Rule) → Build (List Declarator)
  | [] => return []
  | .mk .variableDeclaration a b _ [name] :: rest =>
    return ⟨⟨a, b⟩, buildIdentifier name, none⟩ :: (← buildDeclarators rest)
  | .mk .variableDeclaration a b _ [name, init] :: rest => do
    let init ← buildExpression init
    return ⟨⟨a, b⟩, buildIdentifier name, some init⟩ :: (← buildDeclarators rest)
  | node :: _ => Build.malformed (if node.rule = .variableDeclaration then 12 else 11) node

/-- The expression of the first of some nodes, if there is one. -/
def buildOptional : List (Node Rule) → Build (Option Expression)
  | [] => return none
  | node :: _ => return some (← buildExpression node)

/-- What stands before the first semicolon in the head of a counting loop. -/
def buildLoopStart (span : Span) : List (Node Rule) → Build (Option LoopStart)
  | [] => return none
  | .mk .variableKind a b text ks :: declarators => do
    let kind ← buildKind (.mk .variableKind a b text ks)
    return some (.declaration ⟨span, kind, ← buildDeclarators declarators⟩)
  | node :: _ => return some (.expression (← buildExpression node))

/-- The statement of a node. -/
def buildStatement : Node Rule → Build Statement
  | .mk .functionDeclaration a b _ [_, name, parameters, .mk _ _ _ _ body] => do
    let body ← buildStatements body
    let id ← Build.addFunction
      ⟨⟨a, b⟩, some (buildIdentifier name), parameters.children.map buildIdentifier, body⟩
    return .functionDeclaration ⟨a, b⟩ (buildIdentifier name) id
  | .mk .variableStatement a b _ (kind :: declarators) => do
    let kind ← buildKind kind
    return .variables ⟨⟨a, b⟩, kind, ← buildDeclarators declarators⟩
  | .mk .ifStatement a b _ [_, test, consequent] => do
    let test ← buildExpression test
    return .conditional ⟨a, b⟩ test (← buildStatement consequent) none
  | .mk .ifStatement a b _ [_, test, consequent, _, alternate] => do
    let test ← buildExpression test
    let consequent ← buildStatement consequent
    return .conditional ⟨a, b⟩ test consequent (some (← buildStatement alternate))
  | .mk .whileStatement a b _ [_, test, body] => do
    let test ← buildExpression test
    return .whileLoop ⟨a, b⟩ test (← buildStatement body)
  | .mk .forStatement a b _ [_, .mk _ c d _ start, .mk _ _ _ _ test, .mk _ _ _ _ update, body] => do
    let start ← buildLoopStart ⟨c, d⟩ start
    let test ← buildOptional test
    let update ← buildOptional update
    return .forLoop ⟨a, b⟩ start test update (← buildStatement body)
  | .mk .returnStatement a b _ (_ :: argument) => return .returns ⟨a, b⟩ (← buildOptional argument)
  | .mk .blockStatement a b _ body => return .block ⟨a, b⟩ (← buildStatements body)
  | .mk .emptyStatement a b _ _ => return .empty ⟨a, b⟩
  | .mk .expressionStatement a b _ (e :: _) => return .expression ⟨a, b⟩ (← buildExpression e)
  | node => Build.malformed (statementState node) node

/-- The statements of nodes, in order.  The node for the end of the text is no statement. -/
def buildStatements : List (Node Rule) → Build (List Statement)
  | [] => return []
  | .mk .endOfInput _ _ _ _ :: rest => buildStatements rest
  | node :: rest => do
    let s ← buildStatement node
    return s :: (← buildStatements rest)

end

/-- The program of the node of a whole script. -/
def Program.ofNode (node : Node Rule) : Except BuildError Program := do
  let (body, functions) ← (buildStatements node.children).run #[]
  return { body, functions }

end ScriptTrace
