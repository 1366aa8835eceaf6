import ScriptTrace.Language.Rule
import ScriptTrace.Peg.Matcher

/-!
# The grammar of the language

A subset of JavaScript.  Statements that the simulator treats as inert (loops, conditionals, blocks)
and expressions that it does not evaluate still have rules, so that ordinary snippets are accepted.

Operators have no precedence: a chain of operands is one flat node.  An assignment is tried before
a chain of operands, since both begin with a member expression.

* `Language.grammar`: the grammar.
-/

namespace ScriptTrace

open Peg Pattern

namespace Language

/-- The characters of a text. -/
def word (s : String) : Pattern Rule :=
  .text s.toList

/-- A word of the language that is not the beginning of a longer one. -/
def keyword (p : Pattern Rule) : Pattern Rule :=
  .seq p (.absent (.rule .identifierPart))

/-- Items with commas between them, perhaps none, perhaps with a comma after the last. -/
def commaList (item : Pattern Rule) : Pattern Rule :=
  .optional (inOrder item [.many (.seq (word ",") item), .optional (word ",")])

/-- One or more declarators after the word that opens a declaration. -/
def declarators : List (Pattern Rule) :=
  [.rule .variableDeclaration, .many (.seq (word ",") (.rule .variableDeclaration))]

/-- The characters between two quotes: any but the quote, the backslash and line terminators, or an
escape sequence. -/
def stringCharacters (quote : Char) : Pattern Rule :=
  .many (.choice
    (.seq (.absent (oneOf (.text [quote]) [word "\\", .rule .lineTerminator])) (.char .any))
    (.rule .escapeSequence))

/-- The pattern of a rule. -/
def pattern : Rule → Pattern Rule
  | .endOfInput => .atEnd
  | .whitespace =>
    oneOf (word " ") [word "\t", word "\r", word "\n", .text ['\uFEFF'], .text ['\u00A0']]
  | .comment =>
    .choice
      (.seq (word "//") (.many (.seq (.absent (.rule .lineTerminator)) (.char .any))))
      (inOrder (word "/*") [.many (.seq (.absent (word "*/")) (.char .any)), word "*/"])
  | .lineTerminator => oneOf (word "\n") [word "\r", .text ['\u2028'], .text ['\u2029']]
  | .script => inOrder .atStart [.many (.rule .statement), .rule .endOfInput]
  | .statement =>
    oneOf (.rule .functionDeclaration) [.rule .variableStatement, .rule .ifStatement,
      .rule .whileStatement, .rule .forStatement, .rule .returnStatement, .rule .blockStatement,
      .rule .emptyStatement, .rule .expressionStatement]
  -- Words
  | .identifierStart => oneOf (.char .letter) [word "_", word "$"]
  | .identifierPart => oneOf (.char .alphanumeric) [word "_", word "$"]
  | .reservedWord =>
    keyword (oneOf (word "var") [word "let", word "const", word "function", word "if", word "else",
      word "while", word "for", word "return", word "true", word "false", word "null"])
  | .identifier =>
    inOrder (.absent (.rule .reservedWord)) [.rule .identifierStart, .many (.rule .identifierPart)]
  | .identifierName => .seq (.rule .identifierStart) (.many (.rule .identifierPart))
  | .kwFunction => keyword (word "function")
  | .kwIf => keyword (word "if")
  | .kwElse => keyword (word "else")
  | .kwWhile => keyword (word "while")
  | .kwFor => keyword (word "for")
  | .kwReturn => keyword (word "return")
  | .variableKind => keyword (oneOf (word "var") [word "let", word "const"])
  | .numericLiteral =>
    .seq
      (.choice
        (.seq (.choice (word "0x") (word "0X")) (oneOrMore (.char .hexDigit)))
        (.seq
          (.choice
            (.seq (oneOrMore (.char .digit)) (.optional (.seq (word ".") (.many (.char .digit)))))
            (.seq (word ".") (oneOrMore (.char .digit))))
          (.optional (inOrder (.choice (word "e") (word "E"))
            [.optional (.choice (word "+") (word "-")), oneOrMore (.char .digit)]))))
      (.absent (.rule .identifierStart))
  | .stringLiteral =>
    .choice
      (inOrder (word "\"") [.rule .doubleStringCharacters, word "\""])
      (inOrder (word "'") [.rule .singleStringCharacters, word "'"])
  | .doubleStringCharacters => stringCharacters '"'
  | .singleStringCharacters => stringCharacters '\''
  | .escapeSequence => .seq (word "\\") (.char .any)
  | .booleanLiteral => keyword (.choice (word "true") (word "false"))
  | .nullLiteral => keyword (word "null")
  -- Expressions
  | .expression => .choice (.rule .assignmentExpression) (.rule .binaryExpression)
  | .assignmentExpression =>
    inOrder (.rule .memberExpression) [.rule .assignOperator, .rule .expression]
  | .assignOperator => .seq (word "=") (.absent (word "="))
  | .binaryExpression =>
    .seq (.rule .unaryExpression) (.many (.seq (.rule .binaryOperator) (.rule .unaryExpression)))
  | .binaryOperator =>
    oneOf (word "===") [word "!==", word "==", word "!=", word "<=", word ">=", word "&&",
      word "||", word "+", word "-", word "*", word "/", word "%", word "<", word ">"]
  | .unaryExpression => .choice (.rule .prefixExpression) (.rule .memberExpression)
  | .prefixExpression => .seq (.rule .unaryOperator) (.rule .unaryExpression)
  | .unaryOperator => oneOf (word "!") [word "-", word "+"]
  | .memberExpression =>
    .seq (.rule .primaryExpression)
      (.many (.choice (.rule .dotProperty) (.rule .callArguments)))
  | .dotProperty => .seq (word ".") (.rule .identifierName)
  | .callArguments => inOrder (word "(") [commaList (.rule .expression), word ")"]
  | .primaryExpression =>
    oneOf (.rule .functionExpression) [.rule .objectLiteral, .rule .arrayLiteral,
      .rule .numericLiteral, .rule .stringLiteral, .rule .booleanLiteral, .rule .nullLiteral,
      .rule .identifier, inOrder (word "(") [.rule .expression, word ")"]]
  | .objectLiteral => inOrder (word "\x7b") [commaList (.rule .propertyDefinition), word "\x7d"]
  | .propertyDefinition =>
    inOrder (oneOf (.rule .identifierName) [.rule .stringLiteral, .rule .numericLiteral])
      [word ":", .rule .expression]
  | .arrayLiteral => inOrder (word "[") [commaList (.rule .expression), word "]"]
  | .functionExpression =>
    inOrder (.rule .kwFunction)
      [.optional (.rule .identifier), .rule .formalParameters, .rule .functionBody]
  -- Statements
  | .smartSemicolon => .optional (word ";")
  | .functionDeclaration =>
    inOrder (.rule .kwFunction) [.rule .identifier, .rule .formalParameters, .rule .functionBody]
  | .formalParameters => inOrder (word "(") [commaList (.rule .identifier), word ")"]
  | .functionBody | .blockStatement =>
    inOrder (word "\x7b") [.many (.rule .statement), word "\x7d"]
  | .variableStatement =>
    inOrder (.rule .variableKind) (declarators ++ [.rule .smartSemicolon])
  | .variableDeclaration =>
    .seq (.rule .identifier) (.optional (.seq (word "=") (.rule .expression)))
  | .ifStatement =>
    inOrder (.rule .kwIf) [word "(", .rule .expression, word ")", .rule .statement,
      .optional (.seq (.rule .kwElse) (.rule .statement))]
  | .whileStatement =>
    inOrder (.rule .kwWhile) [word "(", .rule .expression, word ")", .rule .statement]
  | .forStatement =>
    inOrder (.rule .kwFor) [word "(", .rule .forInit, word ";", .rule .forTest, word ";",
      .rule .forUpdate, word ")", .rule .statement]
  | .forInit =>
    .optional (.choice (inOrder (.rule .variableKind) declarators) (.rule .expression))
  | .forTest | .forUpdate => .optional (.rule .expression)
  | .returnStatement =>
    inOrder (.rule .kwReturn) [.optional (.rule .expression), .rule .smartSemicolon]
  | .emptyStatement => word ";"
  | .expressionStatement => .seq (.rule .expression) (.rule .smartSemicolon)

/-- The kind of a rule. -/
def kind : Rule → Kind
  | .whitespace | .comment => .trivia
  | .lineTerminator | .statement | .identifierStart | .identifierPart | .escapeSequence
  | .expression | .assignOperator | .unaryExpression | .primaryExpression | .smartSemicolon =>
    .silent
  | .reservedWord | .identifier | .identifierName | .kwFunction | .kwIf | .kwElse | .kwWhile
  | .kwFor | .kwReturn | .variableKind | .numericLiteral | .doubleStringCharacters
  | .singleStringCharacters | .booleanLiteral | .nullLiteral => .atomic
  | .stringLiteral => .compound
  | _ => .normal

end Language

/-- The grammar of the language. -/
def Language.grammar : Peg.Grammar Rule where
  kind := Language.kind
  body := Language.pattern
  trivia := .many (.choice (.rule .whitespace) (.rule .comment))
  rules := Rule.all

end ScriptTrace
