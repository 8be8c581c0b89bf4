import Bies.Event
import Bies.Number

/-!
# Nodes

The normal form of a program's constructs: arithmetic on known numbers is done, and the bodies of
functions are lifted out. Every node has a number of its own, and the same node may stand both in the
sequence of a function and inside a later node of it.
-/

namespace Bies

/-- The number of a node; a program is taken to have fewer than 2³² nodes. -/
abbrev NodeId := Nat

/-- What every node has: its number and the source it was made from. -/
structure Tag where
  id : NodeId
  span : Span
deriving DecidableEq, Repr

inductive Node where
  /-- `let name = value`, or `const` if `constant`. -/
  | decl (tag : Tag) (constant : Bool) (name : String) (value : Node)
  /-- Declarations and the block they are visible in. -/
  | letIn (tag : Tag) (decls : List Node) (body : Node)
  /-- Arithmetic that is left to the machine. -/
  | binary (tag : Tag) (left : Node) (op : String) (right : Node)
  | comparison (tag : Tag) (left : Node) (op : String) (right : Node)
  /-- A condition and its block, with nothing after them. -/
  | ifThen (tag : Tag) (test body : Node)
  /-- The same with the block of an `else`. -/
  | ifElse (tag : Tag) (test body other : Node)
  /-- The same with another condition after the `else`. -/
  | ifElseIf (tag : Tag) (test body link : Node)
  | block (tag : Tag) (statements : List Node)
  /-- The place where a function with a name is declared. -/
  | funDecl (tag : Tag) (name : String) (params : List String) (function : FunctionId)
  /-- A function without a name, used as a value; its body is also that of `function`. -/
  | lambda (tag : Tag) (params : List String) (body : Node) (function : FunctionId)
  | call (tag : Tag) (name : String) (args : List Node)
  | print (tag : Tag) (args : List Node)
  | ret (tag : Tag) (value : Node)
  /-- An item of the list `name`. -/
  | access (tag : Tag) (name : String) (index : Node)
  | list (tag : Tag) (items : List Node)
  | int (tag : Tag) (n : Int64)
  | float (tag : Tag) (x : Float)
  /-- A string, its quotes included. -/
  | str (tag : Tag) (text : String)
  | ident (tag : Tag) (name : String)

namespace Node

def tag : Node → Tag
  | .decl t .. | .letIn t .. | .binary t .. | .comparison t .. | .ifThen t .. | .ifElse t ..
  | .ifElseIf t .. | .block t .. | .funDecl t .. | .lambda t .. | .call t .. | .print t .. | .ret t ..
  | .access t .. | .list t .. | .int t .. | .float t .. | .str t .. | .ident t .. => t

def id (n : Node) : NodeId := n.tag.id

def span (n : Node) : Span := n.tag.span

/-- The nodes directly inside, in order. The body of a declared function is not inside its declaration. -/
def children : Node → List Node
  | .decl _ _ _ value | .ret _ value => [value]
  | .letIn _ decls body => decls ++ [body]
  | .binary _ left _ right | .comparison _ left _ right => [left, right]
  | .ifThen _ test body => [test, body]
  | .ifElse _ test body other => [test, body, other]
  | .ifElseIf _ test body link => [test, body, link]
  | .block _ nodes | .call _ _ nodes | .print _ nodes | .list _ nodes => nodes
  | .lambda _ _ body _ => [body]
  | .access _ _ index => [index]
  | .funDecl .. | .int .. | .float .. | .str .. | .ident .. => []

def isLiteral : Node → Bool
  | .int .. | .float .. | .str .. | .list .. => true
  | _ => false

def isDecl : Node → Bool
  | .decl .. => true
  | _ => false

mutual

/-- A node with the number `id` stands somewhere inside. -/
def contains (id : NodeId) : Node → Bool
  | .decl _ _ _ value | .ret _ value => value.id == id || contains id value
  | .letIn _ decls body => anyWithin id decls || body.id == id || contains id body
  | .binary _ left _ right | .comparison _ left _ right =>
    left.id == id || contains id left || right.id == id || contains id right
  | .ifThen _ test body => test.id == id || contains id test || body.id == id || contains id body
  | .ifElse _ test body last | .ifElseIf _ test body last =>
    test.id == id || contains id test || body.id == id || contains id body || last.id == id || contains id last
  | .block _ nodes | .call _ _ nodes | .print _ nodes | .list _ nodes => anyWithin id nodes
  | .lambda _ _ body _ => body.id == id || contains id body
  | .access _ _ index => index.id == id || contains id index
  | .funDecl .. | .int .. | .float .. | .str .. | .ident .. => false
termination_by structural n => n

/-- One of the nodes has the number `id` or contains one that has. -/
def anyWithin (id : NodeId) : List Node → Bool
  | [] => false
  | n :: rest => n.id == id || contains id n || anyWithin id rest
termination_by structural nodes => nodes

end

/-- Names with commas between them, in parentheses. -/
def renderParams (params : List String) : String := "(" ++ ", ".intercalate params ++ ")"

mutual

/-- The node on one line. -/
def describe : Node → String
  | .decl _ false name value => s!"LetDecl({name}, {describe value})"
  | .decl _ true name value => s!"ConstDecl({name}, {describe value})"
  | .letIn _ decls body => s!"LetIn([{describeAll decls}], {describe body})"
  | .binary _ left op right => s!"Binary({describe left} {op} {describe right})"
  | .comparison _ left op right => s!"Comparison({describe left} {op} {describe right})"
  | .ifThen _ test body => s!"If({describe test}, {describe body})"
  | .ifElse _ test body other => s!"If({describe test}, {describe body}, else {describe other})"
  | .ifElseIf _ test body link => s!"If({describe test}, {describe body}, else {describe link})"
  | .block _ nodes => leftBrace ++ describeAll nodes ++ rightBrace
  | .funDecl _ name params f => s!"FunctionDecl({name}{renderParams params} {renderFunctionId f})"
  | .lambda _ params _ f => s!"Lambda({renderParams params} {renderFunctionId f})"
  | .call _ name args => s!"{name}({describeAll args})"
  | .print _ args => s!"Print({describeAll args})"
  | .ret _ value => s!"Return({describe value})"
  | .access _ name index => s!"{name}[{describe index}]"
  | .list _ items => s!"[{describeAll items}]"
  | .int _ n => renderInt n
  | .float _ x => renderFloat x
  | .str _ text | .ident _ text => text

def describeAll : List Node → String
  | [] => ""
  | [n] => describe n
  | n :: rest => s!"{describe n}, {describeAll rest}"

end

end Node
end Bies
