import Bies.Fault
import Bies.Number
import Bies.Tree

/-!
# Programs

A program is a list of statements. `Program.ofTree` reads one off a syntax tree and its source, and
never fails: what the tree gets wrong becomes a malformed statement or expression at the place where a
reader going through the program in order would first notice it.
-/

namespace Bies

mutual

inductive Expr where
  | int (span : Span) (n : Int64)
  | float (span : Span) (x : Float)
  /-- A string, its quotes included. -/
  | str (span : Span) (text : String)
  | ident (span : Span) (name : String)
  | arithmetic (span : Span) (left : Expr) (op : String) (right : Expr)
  | comparison (span : Span) (left : Expr) (op : String) (right : Expr)
  | call (span : Span) (name : String) (args : List Expr)
  /-- `name[index]` -/
  | access (span : Span) (name : String) (index : Expr)
  | list (span : Span) (items : List Expr)
  | lambda (span : Span) (params : List String) (body : Body)
  | malformed (span : Span) (fault : Fault)

/-- The body of a function: statements, or an expression whose value is returned. -/
inductive Body where
  | block (span : Span) (statements : List Stmt)
  | value (span : Span) (value : Expr)

inductive Stmt where
  /-- `let name = value`, or `const` if `constant`, where the value is no lambda. -/
  | decl (span : Span) (constant : Bool) (name : String) (value : Expr)
  /-- `let name = (params) => body` -/
  | lambdaDecl (span : Span) (name : String) (lambdaSpan : Span) (params : List String) (body : Body)
  /-- `fun name(params) body` -/
  | funDecl (span : Span) (name : String) (params : List String) (body : Body)
  /-- `let { decls } in body` -/
  | letIn (span : Span) (decls : List Stmt) (bodySpan : Span) (body : List Stmt)
  /-- `if (test) body` -/
  | ifThen (span : Span) (test : Expr) (bodySpan : Span) (body : List Stmt)
  /-- `if (test) body else other` -/
  | ifElse (span : Span) (test : Expr) (bodySpan : Span) (body : List Stmt) (otherSpan : Span)
      (other : List Stmt)
  /-- `if (test) body else link`, where the link is another condition. -/
  | ifElseIf (span : Span) (test : Expr) (bodySpan : Span) (body : List Stmt) (link : Stmt)
  | block (span : Span) (statements : List Stmt)
  | ret (span : Span) (value : Expr)
  | print (span : Span) (args : List Expr)
  | expr (value : Expr)
  | malformed (span : Span) (fault : Fault)

end

abbrev Program := List Stmt

namespace Program

variable (source : List Char)

/-- The text of a tree that is a name. -/
def nameOf? (t : Tree) : Option String :=
  if t.kind = .identifier then some (t.text source) else none

/-- The names of a parameter list, or the first fault and its place. -/
def paramsOf (t : Tree) : Except (Span × Fault) (List String) :=
  if t.kind = .parameterList then
    t.children.mapM fun p =>
      match nameOf? source p with
      | some name => .ok name
      | none => .error (p.span, .notIdentifier .parameterList)
  else .error (t.span, .notParameters)

mutual

def exprOf : Tree → Expr
  | .node kind span children =>
    match kind with
    | .integer =>
      match readInt? (span.text source).toList with
      | some n => .int span n
      | none => .malformed span .integerOutOfRange
    | .float =>
      match readFloat? (span.text source).toList with
      | some x => .float span x
      | none => .malformed span .floatNotNumber
    | .string => .str span (span.text source)
    | .identifier => .ident span (span.text source)
    | .arithmetic =>
      match children with
      | [left, op, right] =>
        if op.kind = .operator then .arithmetic span (exprOf left) (op.text source) (exprOf right)
        else .malformed span .arithmeticShape
      | _ => .malformed span .arithmeticShape
    | .comparison =>
      match children with
      | [left, op, right] =>
        if op.kind = .operator then .comparison span (exprOf left) (op.text source) (exprOf right)
        else .malformed span .comparisonShape
      | _ => .malformed span .comparisonShape
    | .call =>
      match children with
      | [name, .node argsKind argsSpan args] =>
        match nameOf? source name with
        | none => .malformed name.span (.notIdentifier .functionCall)
        | some name =>
          if argsKind = .argumentList then .call span name (exprsOf args)
          else .malformed argsSpan .notArguments
      | _ => .malformed span .callShape
    | .listAccess =>
      match children with
      | [name, index] =>
        match nameOf? source name with
        | none => .malformed name.span (.notIdentifier .listAccess)
        | some name => .access span name (exprOf index)
      | _ => .malformed span .accessShape
    | .listLiteral => .list span (exprsOf children)
    | .lambda =>
      match children with
      | [params, body] =>
        match paramsOf source params with
        | .error (s, fault) => .malformed s fault
        | .ok params =>
          if body.kind = .block then .lambda span params (.block body.span (blockOf body))
          else .lambda span params (.value body.span (exprOf body))
      | _ => .malformed span .lambdaShape
    | _ => .malformed span .notExpression

def exprsOf : List Tree → List Expr
  | [] => []
  | t :: rest => exprOf t :: exprsOf rest

/-- The statements of a block. -/
def blockOf : Tree → List Stmt
  | .node .block _ statements => stmtsOf statements
  | .node _ span _ => [.malformed span .notBlock]

def stmtOf : Tree → Stmt
  | .node kind span children =>
    match kind with
    | .letDeclaration => declOf false span children
    | .constDeclaration => declOf true span children
    | .letIn =>
      match letInOf children with
      | some (decls, bodySpan, body) => .letIn span decls bodySpan body
      | none => .malformed span .letInShape
    | .functionDeclaration => funOf span children
    | .ifStatement => ifOf span children
    | .block => .block span (stmtsOf children)
    | .returnStatement =>
      match children with
      | [value] => .ret span (exprOf value)
      | _ => .malformed span .returnShape
    | .printStatement =>
      match children with
      | [.node .argumentList _ args] => .print span (exprsOf args)
      | [.node _ s _] => .malformed s .notArguments
      | _ => .malformed span .printShape
    | .expressionStatement =>
      match children with
      | [value] => .expr (exprOf value)
      | _ => .malformed span .expressionStatementShape
    | _ => .malformed span .notStatement

def stmtsOf : List Tree → List Stmt
  | [] => []
  | t :: rest => stmtOf t :: stmtsOf rest

/-- A declaration with the given children. -/
def declOf (constant : Bool) (span : Span) : List Tree → Stmt
  | [name, value] =>
    match nameOf? source name with
    | none => .malformed name.span (.notIdentifier (if constant then .constDeclaration else .letDeclaration))
    | some name =>
      match exprOf value with
      | .lambda s params body => .lambdaDecl span name s params body
      | value => .decl span constant name value
  | _ => .malformed span (.declarationShape constant)

/-- A declaration of a let-in. -/
def inDeclOf : Tree → Stmt
  | .node .letDeclaration span children => declOf false span children
  | .node .constDeclaration span children => declOf true span children
  | .node _ span _ => .malformed span .notDeclaration

/-- The declarations of a let-in, and the place and the statements of its body, which comes last. -/
def letInOf : List Tree → Option (List Stmt × Span × List Stmt)
  | [] => none
  | [body] => some ([], body.span, blockOf body)
  | decl :: rest => (letInOf rest).map fun (decls, bodySpan, body) => (inDeclOf decl :: decls, bodySpan, body)

/-- A function declaration with the given children. -/
def funOf (span : Span) : List Tree → Stmt
  | [name, params, .node .block bodySpan statements] =>
    match nameOf? source name with
    | none => .malformed name.span (.notIdentifier .functionDeclaration)
    | some name =>
      match paramsOf source params with
      | .error (s, fault) => .malformed s fault
      | .ok params => .funDecl span name params (.block bodySpan (stmtsOf statements))
  | [_, _, .node _ bodySpan _] => .malformed bodySpan .functionBodyShape
  | _ => .malformed span .functionShape

/-- A condition with the given children: the test, the block and what follows an `else`. -/
def ifOf (span : Span) : List Tree → Stmt
  | [test, body] => .ifThen span (exprOf test) body.span (blockOf body)
  | [test, body, .node .elseIf s children] =>
    .ifElseIf span (exprOf test) body.span (blockOf body) (ifOf s children)
  | [test, body, .node .elseStatement _ [other]] =>
    .ifElse span (exprOf test) body.span (blockOf body) other.span (blockOf other)
  | [test, body, .node .elseStatement s _] =>
    .ifElse span (exprOf test) body.span (blockOf body) s [.malformed s .elseShape]
  | [test, body, .node _ s _] =>
    .ifElse span (exprOf test) body.span (blockOf body) s [.malformed s .notElse]
  | _ => .malformed span .ifShape

end

/-- The program that a tree stands for, with the texts of its leaves from the source. -/
def ofTree : Tree → Program
  | .node .program _ statements => stmtsOf source statements
  | .node _ span _ => [.malformed span .notProgram]

end Program
end Bies
