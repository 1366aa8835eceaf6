/-!
# The rules of the language

The names of the rules of the grammar.  Their order is the order in which a report of a failed parse
lists what was expected: the end of the text first, then blanks, words, expressions and statements.

* `Rule`: the rules.
* `Rule.all`: all of them in order.
* `Rule.name`: the name of a rule in reports and in dumps of trees.
* `Rule.ofName?`: the rule with a name.
* `Rule.isKeyword`: the keywords that have nodes of their own.
-/

namespace ScriptTrace

/-- A rule of the grammar. -/
inductive Rule where
  | endOfInput
  | whitespace
  | comment
  | lineTerminator
  | script
  | statement
  | identifierStart
  | identifierPart
  | reservedWord
  | identifier
  | identifierName
  | kwFunction
  | kwIf
  | kwElse
  | kwWhile
  | kwFor
  | kwReturn
  | variableKind
  | numericLiteral
  | stringLiteral
  | doubleStringCharacters
  | singleStringCharacters
  | escapeSequence
  | booleanLiteral
  | nullLiteral
  | expression
  | assignmentExpression
  | assignOperator
  | binaryExpression
  | binaryOperator
  | unaryExpression
  | prefixExpression
  | unaryOperator
  | memberExpression
  | dotProperty
  | callArguments
  | primaryExpression
  | objectLiteral
  | propertyDefinition
  | arrayLiteral
  | functionExpression
  | smartSemicolon
  | functionDeclaration
  | formalParameters
  | functionBody
  | variableStatement
  | variableDeclaration
  | ifStatement
  | whileStatement
  | forStatement
  | forInit
  | forTest
  | forUpdate
  | returnStatement
  | blockStatement
  | emptyStatement
  | expressionStatement
  deriving DecidableEq, Repr

namespace Rule

/-- All rules, in the order of reports. -/
def all : List Rule := [
  .endOfInput, .whitespace, .comment, .lineTerminator, .script, .statement, .identifierStart,
  .identifierPart, .reservedWord, .identifier, .identifierName, .kwFunction, .kwIf, .kwElse,
  .kwWhile, .kwFor, .kwReturn, .variableKind, .numericLiteral, .stringLiteral,
  .doubleStringCharacters, .singleStringCharacters, .escapeSequence, .booleanLiteral, .nullLiteral,
  .expression, .assignmentExpression, .assignOperator, .binaryExpression, .binaryOperator,
  .unaryExpression, .prefixExpression, .unaryOperator, .memberExpression, .dotProperty,
  .callArguments, .primaryExpression, .objectLiteral, .propertyDefinition, .arrayLiteral,
  .functionExpression, .smartSemicolon, .functionDeclaration, .formalParameters, .functionBody,
  .variableStatement, .variableDeclaration, .ifStatement, .whileStatement, .forStatement, .forInit,
  .forTest, .forUpdate, .returnStatement, .blockStatement, .emptyStatement, .expressionStatement]

/-- The name of a rule. -/
def name : Rule → String
  | .endOfInput => "EOI"
  | .whitespace => "WHITESPACE"
  | .comment => "COMMENT"
  | .lineTerminator => "line_terminator"
  | .script => "script"
  | .statement => "statement"
  | .identifierStart => "identifier_start"
  | .identifierPart => "identifier_part"
  | .reservedWord => "reserved_word"
  | .identifier => "identifier"
  | .identifierName => "identifier_name"
  | .kwFunction => "kw_function"
  | .kwIf => "kw_if"
  | .kwElse => "kw_else"
  | .kwWhile => "kw_while"
  | .kwFor => "kw_for"
  | .kwReturn => "kw_return"
  | .variableKind => "variable_kind"
  | .numericLiteral => "numeric_literal"
  | .stringLiteral => "string_literal"
  | .doubleStringCharacters => "double_string_characters"
  | .singleStringCharacters => "single_string_characters"
  | .escapeSequence => "escape_sequence"
  | .booleanLiteral => "boolean_literal"
  | .nullLiteral => "null_literal"
  | .expression => "expression"
  | .assignmentExpression => "assignment_expression"
  | .assignOperator => "assign_operator"
  | .binaryExpression => "binary_expression"
  | .binaryOperator => "binary_operator"
  | .unaryExpression => "unary_expression"
  | .prefixExpression => "prefix_expression"
  | .unaryOperator => "unary_operator"
  | .memberExpression => "member_expression"
  | .dotProperty => "dot_property"
  | .callArguments => "call_arguments"
  | .primaryExpression => "primary_expression"
  | .objectLiteral => "object_literal"
  | .propertyDefinition => "property_definition"
  | .arrayLiteral => "array_literal"
  | .functionExpression => "function_expression"
  | .smartSemicolon => "smart_semicolon"
  | .functionDeclaration => "function_declaration"
  | .formalParameters => "formal_parameters"
  | .functionBody => "function_body"
  | .variableStatement => "variable_statement"
  | .variableDeclaration => "variable_declaration"
  | .ifStatement => "if_statement"
  | .whileStatement => "while_statement"
  | .forStatement => "for_statement"
  | .forInit => "for_init"
  | .forTest => "for_test"
  | .forUpdate => "for_update"
  | .returnStatement => "return_statement"
  | .blockStatement => "block_statement"
  | .emptyStatement => "empty_statement"
  | .expressionStatement => "expression_statement"

/-- The rule with a name. -/
def ofName? (name : String) : Option Rule :=
  all.find? fun r => r.name = name

/-- Whether a rule is for a keyword that has a node of its own. -/
def isKeyword : Rule → Bool
  | .kwFunction | .kwIf | .kwElse | .kwWhile | .kwFor | .kwReturn => true
  | _ => false

theorem mem_all (r : Rule) : r ∈ all := by
  cases r <;> decide

end Rule

end ScriptTrace
