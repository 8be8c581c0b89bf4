import Bies.ParseError
import Bies.Text.Quoted
import Bies.Token.Scan
import Bies.Tree

/-!
# Parsing

Recursive descent over the tokens of a source. A parser takes tokens off the front of the list and
builds a tree; what it cannot read is an error, and no parser takes anything back.

Operators bind, from the loosest: one comparison, sums and differences to the left, products to the
left, powers to the right, a minus sign directly before a number.

Each call and each turn of a loop spends one unit of a budget. Ten units for each token, and ten more,
are enough for every list of tokens.
-/

namespace Bies

/-- A parser reads from the front of the remaining tokens. -/
abbrev Parser := StateT (List Token) (Except ParseError)

namespace Parser

/-- Where the source ends, and the error that a spent budget is reported by. -/
structure Finish where
  span : Span
  spent : ParseError

variable (stop : Finish)

/-- The next token is not what the grammar asks for here. -/
def fail {α : Type} (what : Expectation) : Parser α := do
  match ← get with
  | t :: _ => throw (.expected what t.span)
  | [] => throw (.unexpectedEnd what stop.span)

/-- The next token is the symbol `text`. -/
def sees (text : String) : Parser Bool := do
  return (← get).head?.any (·.isSymbol text)

def seesAny (texts : List String) : Parser Bool := do
  return (← get).head?.any fun t => texts.any t.isSymbol

/-- Takes the next token if it is the symbol `text`. -/
def accept? (text : String) : Parser (Option Token) := do
  match ← get with
  | t :: rest =>
    if t.isSymbol text then
      set rest
      return some t
    else return none
  | [] => return none

def accept (text : String) : Parser Token := do
  match ← accept? text with
  | some t => return t
  | none => fail stop (.symbol text)

/-- A name that is no keyword. -/
def identifier (what : Expectation) : Parser Tree := do
  match ← get with
  | t :: rest =>
    if t.kind = .identifier ∧ t.text ∉ Token.keywords then
      set rest
      return .leaf .identifier t.span
    else fail stop what
  | [] => fail stop what

/-- The next token, whatever it is, as an operator. -/
def operator : Parser Tree := do
  match ← get with
  | t :: rest =>
    set rest
    return .leaf .operator t.span
  | [] => fail stop .expression

def comparisonOperators : List String := ["==", "!=", ">", ">=", "<", "<="]

def additiveOperators : List String := ["+", "-"]

def multiplicativeOperators : List String := ["*", "/", "%"]

/-- A number with a point is a float. -/
def numberKind (t : Token) : Tree.Kind :=
  if '.' ∈ t.text.toList then .float else .integer

/-- The text ends with the quote that closes it. `escaped` as in `splitString`. -/
def closesAtEnd (escaped : Bool) : List Char → Bool
  | [] => false
  | c :: cs => if c = '"' && !escaped then cs.isEmpty else closesAtEnd (c = '\\' && !escaped) cs

def isTerminatedString (text : List Char) : Bool :=
  match text with
  | '"' :: body => closesAtEnd false body
  | _ => false

/-- The tokens read `name, ... ) =>`; the parenthesis before them is read. -/
def endsParameters : List Token → Bool
  | [] => false
  | t :: rest =>
    if t.kind = .punct ∧ t.text = ")" then rest.head?.any (·.text = "=>")
    else (t.kind = .identifier || (t.kind = .punct && t.text = ",")) && endsParameters rest

/-- The tokens read `(name, ...) =>`. -/
def startsLambda : List Token → Bool
  | [] => false
  | t :: rest => t.isSymbol "(" && endsParameters rest

/-- `, name` as often as it stands there. -/
def moreParameters : Nat → Parser (List Tree)
  | 0 => throw stop.spent
  | n + 1 => do
    match ← accept? "," with
    | none => return []
    | some _ =>
      let name ← identifier stop .identifier
      return name :: (← moreParameters n)

/-- `(name, ...)` -/
def parameterList (n : Nat) : Parser Tree := do
  let first ← accept stop "("
  let names ← if ← sees ")" then pure [] else do
    let name ← identifier stop .identifier
    pure (name :: (← moreParameters stop n))
  let last ← accept stop ")"
  return .node .parameterList (first.span.join last.span) names

mutual

/-- A statement and the semicolon after it, if there is one. -/
def statement : Nat → Parser Tree
  | 0 => throw stop.spent
  | n + 1 => do
    let tree ←
      if ← sees "let" then
        if (← get).tail.head?.any (·.text = leftBrace) then letIn n
        else declaration .letDeclaration "let" n
      else if ← sees "const" then declaration .constDeclaration "const" n
      else if ← sees "fun" then functionDeclaration n
      else if ← sees "if" then ifStatement .ifStatement n
      else if ← sees "return" then do
        let keyword ← accept stop "return"
        let value ← expression n
        pure (.node .returnStatement (keyword.span.join value.span) [value])
      else if ← sees "print" then do
        let keyword ← accept stop "print"
        let args ← argumentList n
        pure (.node .printStatement (keyword.span.join args.span) [args])
      else if ← sees leftBrace then block n
      else do
        let value ← expression n
        pure (.covering .expressionStatement [value])
    let _ ← accept? ";"
    return tree

/-- `keyword name = value` -/
def declaration (kind : Tree.Kind) (keyword : String) : Nat → Parser Tree
  | 0 => throw stop.spent
  | n + 1 => do
    let keyword ← accept stop keyword
    let name ← identifier stop .identifier
    let _ ← accept stop "="
    let value ← expression n
    return .node kind (keyword.span.join value.span) [name, value]

/-- `let { declarations } in block` -/
def letIn : Nat → Parser Tree
  | 0 => throw stop.spent
  | n + 1 => do
    let keyword ← accept stop "let"
    let _ ← accept stop leftBrace
    let declarations ← letInDeclarations n
    let _ ← accept stop rightBrace
    let _ ← accept stop "in"
    let body ← block n
    return .node .letIn (keyword.span.join body.span) (declarations ++ [body])

/-- The declarations up to the closing brace, each with its semicolon, if there is one. -/
def letInDeclarations : Nat → Parser (List Tree)
  | 0 => throw stop.spent
  | n + 1 => do
    if ← sees rightBrace then return []
    else
      let tree ←
        if ← sees "let" then declaration .letDeclaration "let" n
        else if ← sees "const" then declaration .constDeclaration "const" n
        else fail stop .declaration
      let _ ← accept? ";"
      return tree :: (← letInDeclarations n)

/-- `fun name(parameters) block` -/
def functionDeclaration : Nat → Parser Tree
  | 0 => throw stop.spent
  | n + 1 => do
    let keyword ← accept stop "fun"
    let name ← identifier stop .identifier
    let params ← parameterList stop n
    let body ← block n
    return .node .functionDeclaration (keyword.span.join body.span) [name, params, body]

/-- `if (condition) block`, then an `else` with a block or with another condition, if there is one. -/
def ifStatement (kind : Tree.Kind) : Nat → Parser Tree
  | 0 => throw stop.spent
  | n + 1 => do
    let keyword ← accept stop "if"
    let _ ← accept stop "("
    let condition ← expression n
    let _ ← accept stop ")"
    let body ← block n
    let span := keyword.span.join body.span
    match ← accept? "else" with
    | none => return .node kind span [condition, body]
    | some word =>
      let tail ← if ← sees "if" then ifStatement .elseIf n else do
        let body ← block n
        pure (.node .elseStatement (word.span.join body.span) [body])
      return .node kind (span.join tail.span) [condition, body, tail]

/-- `{ statements }` -/
def block : Nat → Parser Tree
  | 0 => throw stop.spent
  | n + 1 => do
    let first ← accept stop leftBrace
    let statements ← blockStatements n
    let last ← accept stop rightBrace
    return .node .block (first.span.join last.span) statements

/-- The statements up to a closing brace. -/
def blockStatements : Nat → Parser (List Tree)
  | 0 => throw stop.spent
  | n + 1 => do
    if ← sees rightBrace then return []
    else if (← get).isEmpty then fail stop (.symbol rightBrace)
    else
      let tree ← statement n
      return tree :: (← blockStatements n)

/-- `(expression, ...)` -/
def argumentList : Nat → Parser Tree
  | 0 => throw stop.spent
  | n + 1 => do
    let first ← accept stop "("
    let args ← expressions ")" n
    let last ← accept stop ")"
    return .node .argumentList (first.span.join last.span) args

/-- Expressions with commas between them, none if the closing symbol follows at once. -/
def expressions (close : String) : Nat → Parser (List Tree)
  | 0 => throw stop.spent
  | n + 1 => do
    if ← sees close then return []
    else
      let item ← expression n
      return item :: (← moreExpressions n)

/-- `, expression` as often as it stands there. -/
def moreExpressions : Nat → Parser (List Tree)
  | 0 => throw stop.spent
  | n + 1 => do
    match ← accept? "," with
    | none => return []
    | some _ =>
      let item ← expression n
      return item :: (← moreExpressions n)

def expression : Nat → Parser Tree
  | 0 => throw stop.spent
  | n + 1 => do
    if startsLambda (← get) then lambda n else comparison n

/-- `(parameters) => body`, where the body is a block or an expression. -/
def lambda : Nat → Parser Tree
  | 0 => throw stop.spent
  | n + 1 => do
    let params ← parameterList stop n
    let _ ← accept stop "=>"
    let body ← if ← sees leftBrace then block n else expression n
    return .node .lambda (params.span.join body.span) [params, body]

def comparison : Nat → Parser Tree
  | 0 => throw stop.spent
  | n + 1 => do
    let left ← additive n
    if ← seesAny comparisonOperators then
      let op ← operator stop
      let right ← additive n
      return .covering .comparison [left, op, right]
    else return left

def additive : Nat → Parser Tree
  | 0 => throw stop.spent
  | n + 1 => do additiveTail (← term n) n

/-- The terms added to or taken from `left`. -/
def additiveTail (left : Tree) : Nat → Parser Tree
  | 0 => throw stop.spent
  | n + 1 => do
    if ← seesAny additiveOperators then
      let op ← operator stop
      let right ← term n
      additiveTail (.covering .arithmetic [left, op, right]) n
    else return left

def term : Nat → Parser Tree
  | 0 => throw stop.spent
  | n + 1 => do termTail (← power n) n

/-- The factors that follow `left`. -/
def termTail (left : Tree) : Nat → Parser Tree
  | 0 => throw stop.spent
  | n + 1 => do
    if ← seesAny multiplicativeOperators then
      let op ← operator stop
      let right ← power n
      termTail (.covering .arithmetic [left, op, right]) n
    else return left

def power : Nat → Parser Tree
  | 0 => throw stop.spent
  | n + 1 => do
    let base ← unary n
    if ← sees "**" then
      let op ← operator stop
      let exponent ← power n
      return .covering .arithmetic [base, op, exponent]
    else return base

/-- A minus sign belongs to the number behind it and to nothing else. -/
def unary : Nat → Parser Tree
  | 0 => throw stop.spent
  | n + 1 => do
    match ← accept? "-" with
    | none => primary n
    | some minus =>
      match ← get with
      | t :: rest =>
        if t.kind = .number then
          set rest
          return .leaf (numberKind t) (minus.span.join t.span)
        else throw (.badUnaryMinus (minus.span.join t.span))
      | [] => throw (.badUnaryMinus minus.span)

def primary : Nat → Parser Tree
  | 0 => throw stop.spent
  | n + 1 => do
    match ← get with
    | [] => fail stop .expression
    | t :: rest =>
      match t.kind with
      | .number =>
        set rest
        return .leaf (numberKind t) t.span
      | .string =>
        set rest
        if isTerminatedString t.text.toList then return .leaf .string t.span
        else throw (.unterminatedString t.span)
      | .identifier =>
        let name ← identifier stop .expression
        if ← sees "(" then
          let args ← argumentList n
          return .covering .call [name, args]
        else
          match ← accept? "[" with
          | none => return name
          | some _ =>
            let index ← expression n
            let last ← accept stop "]"
            return .node .listAccess (name.span.join last.span) [name, index]
      | _ =>
        if t.isSymbol "[" then
          set rest
          let items ← expressions "]" n
          let last ← accept stop "]"
          return .node .listLiteral (t.span.join last.span) items
        else if t.isSymbol "(" then
          set rest
          let inner ← expression n
          let _ ← accept stop ")"
          return inner
        else fail stop .expression

end

/-- Statements to the end of the tokens. -/
def program : Nat → Parser (List Tree)
  | 0 => throw stop.spent
  | n + 1 => do
    if (← get).isEmpty then return []
    else
      let tree ← statement stop n
      return tree :: (← program n)

/-- The budget for a list of tokens. -/
def budget (tokens : List Token) : Nat := 10 * (tokens.length + 1)

/-- No run with that budget spends it, so any error will do. -/
def Finish.ofSource (source : List Char) : Finish :=
  let stop := .ofOffsets (byteLength source) (byteLength source)
  ⟨stop, .unexpectedEnd .expression stop⟩

end Parser

/-- The tree of a source. Comments are no part of it. -/
def Tree.parse (source : List Char) : Except ParseError Tree := do
  let tokens := (Token.scan source).filter (·.kind ≠ .comment)
  let (statements, _) ← Parser.program (.ofSource source) (Parser.budget tokens) tokens
  return .node .program (.ofOffsets 0 (byteLength source)) statements

end Bies
