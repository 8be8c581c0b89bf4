import Bies.Assembly
import Bies.CodeBuffer
import Bies.Frame
import Bies.Options
import Bies.Outcome
import Std.Data.TreeMap

/-!
# Lowering a function table

The functions are lowered in the order of the table, each statement of a sequence in turn. A statement
that also stands inside a later one is left to that one, and nothing is lowered twice.

Values are lowered so that their code leaves them on the stack; operands and arguments go before their
operator, the right operand before the left. Code is put together from finished pieces: jumps are
relative, so a piece stays right wherever it is put.
-/

namespace Bies
namespace Lowering

inductive Visit where
  /-- Stands inside a later node, which lowers it. -/
  | deferred
  | emitted
deriving DecidableEq, Repr

structure State where
  frames : Frames
  visits : Std.TreeMap NodeId Visit := {}
  skipped : List Skipped := []
  /-- What has happened, in order. -/
  events : List Event := []

/-- What stays the same while a function is lowered. -/
structure Context where
  table : FunctionTable
  options : Options
  function : FunctionId
  /-- The function and those around it. -/
  chain : List FunctionId

end Lowering

/-- A step of lowering. An error leaves the events that came before it. -/
abbrev Lowering := EStateM CompileError Lowering.State

namespace Lowering

def note (e : Event) : Lowering Unit :=
  modify fun s => { s with events := s.events ++ [e] }

def visit (id : NodeId) (v : Visit) : Lowering Unit :=
  modify fun s => { s with visits := s.visits.insert id v }

/-- Binds a name in the frame of the current function and gives the slot. -/
def bind (c : Context) (name : String) (value : Option Node) : Lowering Nat :=
  modifyGet fun s =>
    let (slot, frames) := s.frames.bind c.function name value
    (slot, { s with frames })

/-! ## Names -/

/-- The function that reads a line of input, after printing its argument, if it has one. -/
def inputName : String := "input"

/-- The function that gives the length of its argument. -/
def lenName : String := "len"

/-- The name stands for a function of the machine, because the program does not define it. -/
def isBuiltin (c : Context) (frames : Frames) (name : String) : Bool :=
  (name = inputName || name = lenName) && (frames.resolve? name c.chain).isNone
    && (c.table.get? name).isNone

/-- How many operands and names are followed to find a text. -/
def maxTextual : Nat := 33

/-- The node is known to be a text, without looking deeper than `limit`. -/
def isTextual (c : Context) (frames : Frames) : (limit : Nat) → Node → Bool
  | 0, _ => false
  | limit + 1, n =>
    match n with
    | .str .. => true
    | .ident _ name =>
      ((frames.resolve? name c.chain).bind (·.value)).any (isTextual c frames limit)
    | .binary _ left op right =>
      op = "+" && (isTextual c frames limit left || isTextual c frames limit right)
    | .call _ name _ => name = inputName && isBuiltin c frames name
    | _ => false

/-- The instruction that pushes what a name used at `span` stands for: a variable, else a function,
else what the options say. -/
def loadName (c : Context) (name : String) (span : Span) : Lowering Instruction := do
  match (← get).frames.resolve? name c.chain with
  | some r => return .bld r.frame r.slot
  | none =>
    match c.table.get? name with
    | some record => return .ldf record.id
    | none =>
      match c.options.unbound with
      | .implicitBinding =>
        let slot ← bind c name none
        note (.boundImplicitly name slot span)
        return .bld 0 slot
      | .reject => throw (.unboundIdentifier name span)

/-! ## Values -/

mutual

def literal : Node → Except CompileError Literal
  | .int _ n => .ok (.int n)
  | .float _ x => .ok (.float x)
  | .str _ text => .ok (.str text)
  | .list _ items => do return .list (← literals items)
  | n => .error (.malformed .notLiteral n.span)

def literals : List Node → Except CompileError (List Literal)
  | [] => .ok []
  | n :: rest => do
    let x ← literal n
    return x :: (← literals rest)

end

/-- The instruction of an arithmetic operator; a sum with a text joins texts. -/
def arithmeticInstruction (c : Context) (tag : Tag) (left : Node) (op : String) (right : Node) :
    Lowering Instruction := do
  match Instruction.arithmetic? op with
  | none => throw (.unknownOperator op tag.span)
  | some i =>
    let frames := (← get).frames
    let joins := i.isAdd && (isTextual c frames maxTextual left || isTextual c frames maxTextual right)
    return if joins then .cat else i

/-- The values that the parameters of a called function are taken to hold. -/
def parameterValues (c : Context) (frames : Frames) (callee : FunctionRecord) (args : List Node) :
    List (Option Node) :=
  (List.range callee.arity).map fun i =>
    match c.options.callee with
    | .callArguments => args[i]?
    | .callerPrefix => (frames.get? c.function).bind (·.value? i)

/-- The rest of a call, behind the code of its arguments. -/
def finishCall (c : Context) (tag : Tag) (name : String) (args : List Node) : Lowering Code := do
  if isBuiltin c (← get).frames name then
    if name = lenName then return [.len]
    else
      let slot ← bind c s!"{inputName}#{tag.id}" (some (.call tag name args))
      let prompt := if args.isEmpty then [] else [.prn]
      return prompt ++ [.inp, .bst 0 slot, .bld 0 slot]
  else
    let load ← loadName c name tag.span
    if let some callee := c.table.get? name then
      modify fun s =>
        { s with frames := s.frames.seed callee.id (parameterValues c s.frames callee args) }
    return [load, .app args.length]

mutual

/-- Code that leaves the value of the node on the stack. -/
def lowerValue (c : Context) : Node → Lowering Code
  | .ident tag name => do
    visit tag.id .emitted
    return [← loadName c name tag.span]
  | .binary tag left op right => do
    visit tag.id .emitted
    let i ← arithmeticInstruction c tag left op right
    let rightCode ← lowerValue c right
    let leftCode ← lowerValue c left
    return rightCode ++ leftCode ++ [i]
  | .comparison tag left op right => do
    visit tag.id .emitted
    match Instruction.comparison? op with
    | none => throw (.unknownOperator op tag.span)
    | some i =>
      let rightCode ← lowerValue c right
      let leftCode ← lowerValue c left
      return rightCode ++ leftCode ++ [i]
  | .call tag name args => do
    visit tag.id .emitted
    let code ← lowerValues c args
    return code ++ (← finishCall c tag name args)
  | .access tag name index => do
    visit tag.id .emitted
    let code ← lowerValue c index
    return code ++ [← loadName c name tag.span, .ltk]
  | .lambda tag _ _ f => do
    visit tag.id .emitted
    return [.ldf f]
  | n => do
    visit n.id .emitted
    if n.isLiteral then
      match literal n with
      | .ok x => return [.ldv x]
      | .error e => throw e
    else throw (.malformed .statementAsValue n.span)

def lowerValues (c : Context) : List Node → Lowering Code
  | [] => return []
  | n :: rest => do
    let code ← lowerValue c n
    return code ++ (← lowerValues c rest)

end

/-! ## Conditions -/

/-- The code of a chain of conditions: tests with their blocks, and the block of the last `else`. -/
inductive Chain where
  | done
  | otherwise (code : Code)
  | branch (test body : Code) (rest : Chain)

namespace Chain

def isDone : Chain → Bool
  | .done => true
  | _ => false

/-- Puts the chain behind what the buffer holds. A test that fails goes to what follows its block. A
block goes to `exit`, unless nothing follows it or it returns. -/
def emit (exit : Label) (b : CodeBuffer) : Chain → CodeBuffer
  | .done => b
  | .otherwise code => b.append code
  | .branch test body rest =>
    let (next, b) := b.newLabel
    let b := ((b.append test).jumpIfFalse next).append body
    let b := if rest.isDone || b.last?.any (·.isRet) then b else b.jump exit
    emit exit (b.place next) rest

/-- The code of the whole chain. -/
def code (chain : Chain) : Except InternalError Code :=
  let (exit, b) := CodeBuffer.empty.newLabel
  ((chain.emit exit b).place exit).finish

end Chain

/-! ## Statements -/

/-- A statement without effect. -/
def skip (c : Context) (n : Node) : Lowering Code := do
  note (.skippedStatement c.function n.describe n.span)
  modify fun s => { s with skipped := s.skipped ++ [⟨c.function, n.id, n.describe, n.span⟩] }
  return []

/-- Lowers a statement, unless that has been done. -/
def once {α : Type} (id : NodeId) (lower : Lowering (List α)) : Lowering (List α) := do
  let before := (← get).visits[id]?
  visit id .emitted
  if before = some .emitted then return [] else lower

def finishChain (chain : Chain) : Lowering Code :=
  match chain.code with
  | .ok code => return code
  | .error e => throw (.internal e)

mutual

def lowerStmt (c : Context) : Node → Lowering Code
  | .decl tag _ name value => once tag.id do
    let code ← lowerValue c value
    let slot ← bind c name (some value)
    return code ++ [.bst 0 slot]
  | .letIn tag decls body => once tag.id do
    let code ← lowerStmts c decls
    return code ++ (← lowerStmt c body)
  | .block tag statements => once tag.id (lowerStmts c statements)
  | .ifThen tag test body => once tag.id do
    let test ← lowerValue c test
    let body ← lowerStmt c body
    finishChain (.branch test body .done)
  | .ifElse tag test body other => once tag.id do
    let test ← lowerValue c test
    let body ← lowerStmt c body
    let other ← lowerStmt c other
    finishChain (.branch test body (.otherwise other))
  | .ifElseIf tag test body link => once tag.id do
    let test ← lowerValue c test
    let body ← lowerStmt c body
    let rest ← lowerLink c link
    finishChain (.branch test body rest)
  | .print tag args => once tag.id do
    let code ← lowerValues c args
    return code ++ [.prn]
  | .ret tag value => once tag.id do
    let code ← lowerValue c value
    return if code.endsInRet then code else code ++ [.ret]
  | .call tag name args => once tag.id (lowerValue c (.call tag name args))
  | .binary tag left op right => once tag.id (lowerValue c (.binary tag left op right))
  | .comparison tag left op right => once tag.id (lowerValue c (.comparison tag left op right))
  | .funDecl tag .. => once tag.id (return [])
  | n => once n.id (skip c n)

def lowerStmts (c : Context) : List Node → Lowering Code
  | [] => return []
  | n :: rest => do
    let code ← lowerStmt c n
    return code ++ (← lowerStmts c rest)

/-- A condition that follows an `else`. -/
def lowerLink (c : Context) : Node → Lowering Chain
  | .ifThen tag test body => do
    visit tag.id .emitted
    let test ← lowerValue c test
    let body ← lowerStmt c body
    return .branch test body .done
  | .ifElse tag test body other => do
    visit tag.id .emitted
    let test ← lowerValue c test
    let body ← lowerStmt c body
    let other ← lowerStmt c other
    return .branch test body (.otherwise other)
  | .ifElseIf tag test body link => do
    visit tag.id .emitted
    let test ← lowerValue c test
    let body ← lowerStmt c body
    let rest ← lowerLink c link
    return .branch test body rest
  | n => throw (.internal (.notConditional n.describe))

end

/-! ## Functions -/

/-- Declarations and arithmetic are left to the node that contains them. -/
def isDeferrable : Node → Bool
  | .decl .. | .binary .. => true
  | _ => false

/-- The node stands inside one of the nodes that come later. -/
def isConsumed (n : Node) (later : List Node) : Bool :=
  isDeferrable n && later.any fun m => m.id != n.id && m.contains n.id

/-- The statements of a function; `later` are those of the functions after it. -/
def lowerSequence (c : Context) (later : List Node) : List Node → Lowering Code
  | [] => return []
  | n :: rest => do
    if (← get).visits.contains n.id then lowerSequence c later rest
    else if isConsumed n (rest ++ later) then
      visit n.id .deferred
      lowerSequence c later rest
    else
      let code ← lowerStmt c n
      return code ++ (← lowerSequence c later rest)

/-- A function; `later` are the nodes of the functions after it. -/
def lowerFunction (table : FunctionTable) (options : Options) (later : List Node) (r : FunctionRecord) :
    Lowering FunctionCode := do
  note (.loweringFunction r.id r.name)
  let code ← lowerSequence ⟨table, options, r.id, table.chain r.id⟩ later r.sequence
  let code := if r.id = 0 then code ++ [.hlt] else code
  return ⟨r.id, r.name, r.arity, r.parent.getD 0, code⟩

/-- The functions of the table from one on, in order. -/
def lowerFunctions (table : FunctionTable) (options : Options) :
    List FunctionRecord → Lowering (List FunctionCode)
  | [] => return []
  | r :: rest => do
    let f ← lowerFunction table options (rest.flatMap (·.sequence)) r
    return f :: (← lowerFunctions table options rest)

def lower (table : FunctionTable) (options : Options) : Lowering Assembly := do
  let functions ← lowerFunctions table options table.records
  return ⟨functions, (← get).skipped⟩

end Lowering

/-- The assembly of a function table. -/
def Assembly.ofTable (table : FunctionTable) (options : Options) : Outcome Assembly :=
  .ofRun Lowering.State.events (Lowering.lower table options) { frames := .ofTable table }

end Bies
