import Bies.Span

/-!
# Syntax trees

A tree says what each stretch of the source is. It keeps no text of its own: the text of a leaf is what
the source holds under its span. Trees need not come from the parser here, so nothing is assumed about
the number or the kinds of a node's children.
-/

namespace Bies

inductive Tree.Kind where
  /-- Statements. -/
  | program
  /-- `let name = value` -/
  | letDeclaration
  /-- `const name = value` -/
  | constDeclaration
  /-- `let { declarations } in block`: the declarations, then the block. -/
  | letIn
  /-- `fun name(parameters) block` -/
  | functionDeclaration
  /-- Names. -/
  | parameterList
  /-- `(parameters) => body` -/
  | lambda
  /-- `if (condition) block`, and what follows an `else`. -/
  | ifStatement
  /-- The same after an `else`. -/
  | elseIf
  /-- `else block` -/
  | elseStatement
  /-- Statements. -/
  | block
  | returnStatement
  /-- `print` and an argument list. -/
  | printStatement
  | expressionStatement
  /-- Two operands around an operator. -/
  | comparison
  /-- Two operands around an operator. -/
  | arithmetic
  /-- A name and an argument list. -/
  | call
  /-- Expressions. -/
  | argumentList
  /-- `name[index]` -/
  | listAccess
  /-- Expressions. -/
  | listLiteral
  | identifier
  | integer
  | float
  /-- A string, its quotes included. -/
  | string
  | operator
deriving DecidableEq, Repr

/-- The kinds that are read off one token, or off a number and its sign. -/
def Tree.Kind.isLeaf : Tree.Kind → Bool
  | .identifier | .integer | .float | .string | .operator => true
  | _ => false

inductive Tree where
  | node (kind : Tree.Kind) (span : Span) (children : List Tree)
deriving Repr

namespace Tree

def kind : Tree → Kind
  | .node kind _ _ => kind

def span : Tree → Span
  | .node _ span _ => span

def children : Tree → List Tree
  | .node _ _ children => children

def leaf (kind : Kind) (span : Span) : Tree := .node kind span []

/-- The node whose span joins those of its children. -/
def covering (kind : Kind) (children : List Tree) : Tree :=
  .node kind (children.foldl (fun s t => s.join t.span) .zero) children

def text (t : Tree) (source : List Char) : String := t.span.text source

end Tree
end Bies
