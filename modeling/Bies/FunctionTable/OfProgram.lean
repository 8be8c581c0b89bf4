import Bies.FunctionTable
import Bies.Outcome
import Bies.Program
import Bies.Scope

/-!
# The function table of a program

The program is read once, in order. Every construct becomes a node with the next number. Statements go
to the sequence of the function they stand in; a declaration inside a block stands there twice, on its
own first and then within the statement it is part of. The body of a lambda becomes a function of its
own, named after the variable that holds it or after its node. Arithmetic on known numbers is done.
-/

namespace Bies
namespace Loading

/-- How many names are followed to find a number. -/
def maxNames : Nat := 32

structure State where
  nextId : NodeId := 0
  table : FunctionTable := .initial
  scopes : ScopeStack := .empty
  /-- How many names are followed here. -/
  names : Nat := maxNames
  /-- What has happened, in order. -/
  events : List Event := []

end Loading

/-- A step of loading. An error leaves the events that came before it. -/
abbrev Loading := EStateM CompileError Loading.State

namespace Loading

def note (e : Event) : Loading Unit :=
  modify fun s => { s with events := s.events ++ [e] }

def freshId : Loading NodeId :=
  modifyGet fun s => (s.nextId, { s with nextId := s.nextId + 1 })

/-- A node with the next number. -/
def build (span : Span) (make : Tag → Node) : Loading Node := do
  return make ⟨← freshId, span⟩

def append (f : FunctionId) (n : Node) : Loading Unit := do
  unless f < (← get).table.size do throw (.internal (.noFunction f))
  modify fun s => { s with table := s.table.append f n }

def openScope (push : ScopeStack → ScopeStack) : Loading Unit :=
  modify fun s => { s with scopes := push s.scopes }

def closeScope : Loading Unit :=
  modify fun s => { s with scopes := s.scopes.pop }

/-- The name now stands for the value. -/
def declareName (name : String) (value : Node) : Loading Unit :=
  modify fun s => { s with scopes := s.scopes.declare name value }

/-- A function declared in the function `parent`, by the construct at `span`. -/
def declareFunction (parent : FunctionId) (name : String) (params : List String) (span : Span) :
    Loading FunctionId := do
  if name = mainName then throw (.malformed .mainReserved span)
  modifyGet fun s =>
    let (f, table) := s.table.declare name params parent
    (f, { s with table })

def clear (f : FunctionId) : Loading Unit :=
  modify fun s => { s with table := s.table.clear f }

/-- The number that a node is known to be. A name is looked up, and what it stands for in turn, `limit`
times at most. -/
def knownNumber? (scopes : ScopeStack) : (limit : Nat) → Node → Option Number
  | _, .int _ n => some (.int n)
  | _, .float _ x => some (.float x)
  | limit + 1, .ident _ name => (scopes.lookup name).bind (knownNumber? scopes limit)
  | _, _ => none

/-- Arithmetic, done at once if both operands are known. -/
def buildArithmetic (span : Span) (left : Node) (op : String) (right : Node) : Loading Node := do
  let s ← get
  let known := do
    let a ← knownNumber? s.scopes s.names left
    let b ← knownNumber? s.scopes s.names right
    a.combine? op b
  match known with
  | some (.int n) => build span (.int · n)
  | some (.float x) => build span (.float · x)
  | none => build span (.binary · left op right)

/-- Where a construct stands. -/
structure Place where
  /-- The function whose sequence gets the statements. -/
  function : FunctionId
  /-- Inside the value of a declaration, where declarations in blocks do not stand on their own. -/
  inValue : Bool

/-- Puts a declaration from inside a block into the sequence. -/
def appendDecl (here : Place) (n : Node) : Loading Unit :=
  if n.isDecl && !here.inValue then append here.function n else return ()

/-- A block with the statements that `load` gives, in a scope of its own. -/
def inBlock (span : Span) (load : Loading (List Node)) : Loading Node := do
  openScope (·.pushBlock)
  let statements ← load
  closeScope
  build span (.block · statements)

mutual

def loadExpr (here : Place) : Expr → Loading Node
  | .int span n => build span (.int · n)
  | .float span x => build span (.float · x)
  | .str span text => build span (.str · text)
  | .ident span name => build span (.ident · name)
  | .arithmetic span left op right => do
    let left ← loadExpr here left
    let right ← loadExpr here right
    buildArithmetic span left op right
  | .comparison span left op right => do
    let left ← loadExpr here left
    let right ← loadExpr here right
    build span (.comparison · left op right)
  | .call span name args => do
    let args ← loadExprs here args
    build span (.call · name args)
  | .access span name index => do
    let index ← loadExpr here index
    build span (.access · name index)
  | .list span items => do
    let items ← loadItems here items
    build span (.list · items)
  | .lambda span params body => do
    let id ← freshId
    let name := s!"lambda#{id}"
    let f ← declareFunction here.function name params span
    note (.liftedLambda f name)
    let body ← loadBody f params body
    return .lambda ⟨id, span⟩ params body f
  | .malformed span fault => throw (.malformed fault span)

def loadExprs (here : Place) : List Expr → Loading (List Node)
  | [] => return []
  | e :: rest => do
    let node ← loadExpr here e
    return node :: (← loadExprs here rest)

/-- The items of a list, which are literals. -/
def loadItems (here : Place) : List Expr → Loading (List Node)
  | [] => return []
  | e :: rest => do
    let node ← loadExpr here e
    unless node.isLiteral do throw (.malformed .itemNotLiteral node.span)
    return node :: (← loadItems here rest)

/-- The body of the function `f`, as its sequence and as one node. -/
def loadBody (f : FunctionId) (params : List String) : Body → Loading Node
  | .block span statements => do
    openScope (·.pushFunction params)
    let nodes ← loadSequence ⟨f, false⟩ statements
    closeScope
    build span (.block · nodes)
  | .value span value => do
    openScope (·.pushFunction params)
    let value ← loadExpr ⟨f, false⟩ value
    closeScope
    let node ← build span (.ret · value)
    append f node
    return node

def loadStmt (here : Place) : Stmt → Loading Node
  | .decl span constant name value => do
    let value ← loadExpr { here with inValue := true } value
    let node ← build span (.decl · constant name value)
    declareName name value
    return node
  | .lambdaDecl span name lambdaSpan params body => do
    let id ← freshId
    let f ← declareFunction here.function name params lambdaSpan
    clear f
    note (.liftedLambda f name)
    let _ ← loadBody f params body
    let node := .funDecl ⟨id, span⟩ name params f
    declareName name node
    return node
  | .funDecl span name params body => do
    let f ← declareFunction here.function name params span
    note (.declaredFunction f name)
    let _ ← loadBody f params body
    let node ← build span (.funDecl · name params f)
    declareName name node
    return node
  | .letIn span decls bodySpan body => do
    openScope (·.pushLetIn)
    let decls ← loadBlock here decls
    let statements ← loadBlock here body
    closeScope
    let body ← build bodySpan (.block · statements)
    build span (.letIn · decls body)
  | .ifThen span test bodySpan body => do
    let test ← loadExpr here test
    let body ← inBlock bodySpan (loadBlock here body)
    build span (.ifThen · test body)
  | .ifElse span test bodySpan body otherSpan other => do
    let test ← loadExpr here test
    let body ← inBlock bodySpan (loadBlock here body)
    let other ← inBlock otherSpan (loadBlock here other)
    build span (.ifElse · test body other)
  | .ifElseIf span test bodySpan body link => do
    let test ← loadExpr here test
    let body ← inBlock bodySpan (loadBlock here body)
    let link ← loadStmt here link
    build span (.ifElseIf · test body link)
  | .block span statements => inBlock span (loadBlock here statements)
  | .ret span value => do
    let value ← loadExpr here value
    build span (.ret · value)
  | .print span args => do
    let args ← loadExprs here args
    build span (.print · args)
  | .expr value => loadExpr here value
  | .malformed span fault => throw (.malformed fault span)

/-- Statements of a function: each goes to its sequence. -/
def loadSequence (here : Place) : List Stmt → Loading (List Node)
  | [] => return []
  | s :: rest => do
    let node ← loadStmt here s
    append here.function node
    return node :: (← loadSequence here rest)

/-- Statements of a block: they stay inside it, only declarations go to the sequence as well. -/
def loadBlock (here : Place) : List Stmt → Loading (List Node)
  | [] => return []
  | s :: rest => do
    let node ← loadStmt here s
    appendDecl here node
    return node :: (← loadBlock here rest)

end

/-- A whole program. -/
def load (program : Program) : Loading FunctionTable := do
  let _ ← loadSequence ⟨0, false⟩ program
  let table := (← get).table
  note (.loadedTable table.size)
  return table

end Loading

/-- The function table of a program. -/
def FunctionTable.ofProgram (program : Program) : Outcome FunctionTable :=
  .ofRun Loading.State.events (Loading.load program) {}

end Bies
