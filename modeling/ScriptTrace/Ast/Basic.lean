import ScriptTrace.Number.Basic

/-!
# Syntax trees

The tree of a script.  Every node knows the stretch of source that it was read from.

The bodies of functions do not stand inside the statements and expressions that introduce them.  A
program holds all its functions in one array, and a tree refers to them by index; so a running
machine holds indices instead of pieces of syntax.

* `Span`: a stretch of source.
* `Expression`, `Statement`: the trees.
* `Program`: the statements of a script with the functions they refer to.
-/

namespace ScriptTrace

/-- A stretch of source, by the offsets in bytes of its two ends. -/
structure Span where
  start : Nat
  stop : Nat
  deriving DecidableEq, Repr

/-- A name with the stretch that it stands in. -/
structure Identifier where
  name : String
  span : Span
  deriving DecidableEq, Repr

/-- The index of a function of a program. -/
abbrev FunctionId := Nat

/-- The words that open a declaration of variables. -/
inductive DeclarationKind where
  | varKind
  | letKind
  | constKind
  deriving DecidableEq, Repr

namespace DeclarationKind

/-- The word itself. -/
def word : DeclarationKind → String
  | .varKind => "var"
  | .letKind => "let"
  | .constKind => "const"

/-- Whether a variable so declared has no value before its declaration has run. -/
def isLexical : DeclarationKind → Bool
  | .varKind => false
  | .letKind | .constKind => true

/-- The kind that a word opens. -/
def ofWord? (w : String) : Option DeclarationKind :=
  [varKind, letKind, constKind].find? fun k => k.word = w

end DeclarationKind

/-- The value that a literal spells. -/
inductive Literal where
  | null
  | bool (value : Bool)
  | str (value : String)
  | num (value : Number)
  deriving DecidableEq, Repr

/-- The key of a property in an object literal. -/
inductive PropertyKey where
  | name (name : String)
  | str (value : String)
  | num (value : Number)
  deriving DecidableEq, Repr

/-- Operators before an operand. -/
inductive UnaryOperator where
  | not
  | minus
  | plus
  deriving DecidableEq, Repr

namespace UnaryOperator

/-- How an operator is written. -/
def symbol : UnaryOperator → String
  | .not => "!"
  | .minus => "-"
  | .plus => "+"

/-- All operators. -/
def all : List UnaryOperator := [.not, .minus, .plus]

/-- The operator that is written so. -/
def ofSymbol? (s : String) : Option UnaryOperator :=
  all.find? fun o => o.symbol = s

end UnaryOperator

/-- Operators between two operands. -/
inductive BinaryOperator where
  | strictlyEqual
  | strictlyUnequal
  | looselyEqual
  | looselyUnequal
  | lessThanEqual
  | greaterThanEqual
  | lessThan
  | greaterThan
  | logicalAnd
  | logicalOr
  | add
  | subtract
  | multiply
  | divide
  | modulo
  deriving DecidableEq, Repr

namespace BinaryOperator

/-- How an operator is written. -/
def symbol : BinaryOperator → String
  | .strictlyEqual => "==="
  | .strictlyUnequal => "!=="
  | .looselyEqual => "=="
  | .looselyUnequal => "!="
  | .lessThanEqual => "<="
  | .greaterThanEqual => ">="
  | .lessThan => "<"
  | .greaterThan => ">"
  | .logicalAnd => "&&"
  | .logicalOr => "||"
  | .add => "+"
  | .subtract => "-"
  | .multiply => "*"
  | .divide => "/"
  | .modulo => "%"

/-- All operators. -/
def all : List BinaryOperator :=
  [.strictlyEqual, .strictlyUnequal, .looselyEqual, .looselyUnequal, .lessThanEqual,
    .greaterThanEqual, .lessThan, .greaterThan, .logicalAnd, .logicalOr, .add, .subtract, .multiply,
    .divide, .modulo]

/-- The operator that is written so. -/
def ofSymbol? (s : String) : Option BinaryOperator :=
  all.find? fun o => o.symbol = s

end BinaryOperator

/-- A property of an object literal, over the type of its value. -/
structure Property (ε : Type) where
  span : Span
  key : PropertyKey
  value : ε

/-- An expression. -/
inductive Expression where
  | literal (span : Span) (value : Literal)
  | identifier (name : Identifier)
  | object (span : Span) (properties : List (Property Expression))
  | array (span : Span) (elements : List Expression)
  /-- The property of an object, `object.property`. -/
  | member (span : Span) (object : Expression) (property : Identifier)
  /-- An assignment to a variable. -/
  | assignVariable (span : Span) (target : Identifier) (value : Expression)
  /-- An assignment to the property of an object; `targetSpan` is the stretch of the target. -/
  | assignMember (span targetSpan : Span) (object : Expression) (property : Identifier)
      (value : Expression)
  | call (span : Span) (callee : Expression) (arguments : List Expression)
  | function (span : Span) (id : FunctionId)
  | unary (span : Span) (operator : UnaryOperator) (operand : Expression)
  | binary (span : Span) (operator : BinaryOperator) (left right : Expression)

/-- The stretch of an expression. -/
def Expression.span : Expression → Span
  | .literal s _ | .object s _ | .array s _ | .member s _ _ | .assignVariable s _ _
  | .assignMember s _ _ _ _ | .call s _ _ | .function s _ | .unary s _ _ | .binary s _ _ _ => s
  | .identifier name => name.span

/-- A variable in a declaration, with the expression that gives its first value. -/
structure Declarator where
  span : Span
  name : Identifier
  init : Option Expression

/-- A declaration of variables. -/
structure Declaration where
  span : Span
  kind : DeclarationKind
  declarators : List Declarator

/-- What stands before the first semicolon in the head of a counting loop. -/
inductive LoopStart where
  | declaration (declaration : Declaration)
  | expression (expression : Expression)

/-- A statement. -/
inductive Statement where
  | functionDeclaration (span : Span) (name : Identifier) (id : FunctionId)
  | variables (declaration : Declaration)
  | expression (span : Span) (expression : Expression)
  | block (span : Span) (body : List Statement)
  | conditional (span : Span) (test : Expression) (consequent : Statement)
      (alternate : Option Statement)
  | whileLoop (span : Span) (test : Expression) (body : Statement)
  | forLoop (span : Span) (start : Option LoopStart) (test update : Option Expression)
      (body : Statement)
  | returns (span : Span) (argument : Option Expression)
  | empty (span : Span)

/-- The stretch of a statement. -/
def Statement.span : Statement → Span
  | .functionDeclaration s _ _ | .expression s _ | .block s _ | .conditional s _ _ _
  | .whileLoop s _ _ | .forLoop s _ _ _ _ | .returns s _ | .empty s => s
  | .variables d => d.span

/-- A function of a program. -/
structure FunctionDefinition where
  span : Span
  name : Option Identifier
  parameters : List Identifier
  body : List Statement

/-- A script: its statements, and the functions that statements and expressions refer to. -/
structure Program where
  body : List Statement := []
  functions : Array FunctionDefinition := #[]

/-- The function with an index. -/
def Program.function? (p : Program) (id : FunctionId) : Option FunctionDefinition :=
  p.functions[id]?

end ScriptTrace
