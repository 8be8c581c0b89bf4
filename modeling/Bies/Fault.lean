/-!
# Faults of a syntax tree

A tree that comes from elsewhere may lack a child or hold one of the wrong kind. Each such fault is
reported as a construct and what is wrong with it. A few faults also occur in trees of the parser:
numbers out of range, list items that are no literals, and a function called `main`.
-/

namespace Bies

/-- Where a name is required. -/
inductive NamePlace where
  | letDeclaration
  | constDeclaration
  | parameterList
  | functionDeclaration
  | functionCall
  | listAccess
deriving DecidableEq, Repr

def NamePlace.render : NamePlace → String
  | .letDeclaration => "let declaration"
  | .constDeclaration => "const declaration"
  | .parameterList => "parameter list"
  | .functionDeclaration => "function declaration"
  | .functionCall => "function call"
  | .listAccess => "list access"

inductive Fault where
  | notProgram
  | notBlock
  | notStatement
  | notExpression
  | notIdentifier (place : NamePlace)
  | notParameters
  | notArguments
  | notDeclaration
  | notElse
  | notLiteral
  | returnShape
  | printShape
  | expressionStatementShape
  | declarationShape (constant : Bool)
  | letInShape
  | functionShape
  | functionBodyShape
  | lambdaShape
  | ifShape
  | elseShape
  | callShape
  | accessShape
  | arithmeticShape
  | comparisonShape
  | integerOutOfRange
  | floatNotNumber
  | itemNotLiteral
  | mainReserved
  | statementAsValue
deriving DecidableEq, Repr

namespace Fault

def construct : Fault → String
  | .notProgram => "program"
  | .notBlock => "block"
  | .notStatement => "statement"
  | .notExpression | .statementAsValue => "expression"
  | .notIdentifier place => place.render
  | .notParameters => "parameter list"
  | .notArguments => "argument list"
  | .notDeclaration | .letInShape => "let-in"
  | .notElse | .ifShape => "if"
  | .notLiteral => "literal"
  | .returnShape => "return"
  | .printShape => "print"
  | .expressionStatementShape => "expression statement"
  | .declarationShape false => "let declaration"
  | .declarationShape true => "const declaration"
  | .functionShape | .functionBodyShape | .mainReserved => "function declaration"
  | .lambdaShape => "lambda"
  | .elseShape => "else"
  | .callShape => "function call"
  | .accessShape => "list access"
  | .arithmeticShape => "arithmetic"
  | .comparisonShape => "comparison"
  | .integerOutOfRange => "integer"
  | .floatNotNumber => "float"
  | .itemNotLiteral => "list literal"

def reason : Fault → String
  | .notProgram => "expected a program node"
  | .notBlock | .elseShape => "expected a block"
  | .notStatement | .notExpression => "unexpected syntax"
  | .notIdentifier _ => "expected an identifier"
  | .notParameters => "expected parameters"
  | .notArguments => "expected arguments"
  | .notDeclaration => "expected a declaration"
  | .notElse => "expected else or else if"
  | .notLiteral => "expected a number, string or list"
  | .returnShape => "expected a single value"
  | .printShape => "expected an argument list"
  | .expressionStatementShape => "expected an expression"
  | .declarationShape _ => "expected a name and a value"
  | .letInShape => "expected declarations and a body"
  | .functionShape => "expected a name, parameters and a body"
  | .functionBodyShape => "expected a block body"
  | .lambdaShape => "expected parameters and a body"
  | .ifShape => "expected a condition and a body"
  | .callShape => "expected a name and arguments"
  | .accessShape => "expected a list and an index"
  | .arithmeticShape | .comparisonShape => "expected two operands and an operator"
  | .integerOutOfRange => "out of range"
  | .floatNotNumber => "not a number"
  | .itemNotLiteral => "items must be literals"
  | .mainReserved => "`main` is reserved for top-level statements"
  | .statementAsValue => "statement used as a value"

end Fault
end Bies
