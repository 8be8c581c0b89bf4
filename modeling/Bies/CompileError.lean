import Bies.Event
import Bies.Fault
import Bies.ParseError
import Bies.Text.Quoted

/-!
# What ends a compilation

Every error has three texts: the message with the offsets of its place, the report with line, column
and the source text there, and the trace, which spells out its parts.
-/

namespace Bies

/-- A state that no program leads to. -/
inductive InternalError where
  /-- A statement goes to a function that is not there. -/
  | noFunction (f : FunctionId)
  /-- A jump goes to a label that was put nowhere. -/
  | unplacedLabel (label : Nat)
  /-- What is to become a jump is another instruction. -/
  | patchedNonJump (instruction : String)
  /-- A chain of conditions goes on with something else. -/
  | notConditional (description : String)
deriving DecidableEq, Repr

def InternalError.render : InternalError → String
  | .noFunction f => s!"no function {renderFunctionId f}"
  | .unplacedLabel label => s!"label {label} was never placed"
  | .patchedNonJump instruction => s!"patched non-jump instruction {instruction}"
  | .notConditional description => s!"expected an if node, found {description}"

inductive CompileError where
  | parse (error : ParseError)
  | malformed (fault : Fault) (span : Span)
  | unknownOperator (operator : String) (span : Span)
  /-- A name that is bound nowhere, where such names are not allowed. -/
  | unboundIdentifier (name : String) (span : Span)
  | internal (error : InternalError)
deriving DecidableEq, Repr

namespace CompileError

def span? : CompileError → Option Span
  | .parse e => some e.span
  | .malformed _ s | .unknownOperator _ s | .unboundIdentifier _ s => some s
  | .internal _ => none

def message : CompileError → String
  | .parse e => e.message
  | .malformed fault s => s!"malformed {fault.construct} at {s.render}: {fault.reason}"
  | .unknownOperator op s => s!"unknown operator `{op}` at {s.render}"
  | .unboundIdentifier name s => s!"unbound identifier `{name}` at {s.render}"
  | .internal e => s!"internal compiler error: {e.render}"

/-- What is wrong, with the source text under the span `s` of the error. -/
def quote (source : List Char) : CompileError → String
  | .parse e => e.quote source
  | .malformed fault s => s!"malformed {fault.construct}: {fault.reason}: {s.text source}"
  | .unknownOperator op s => s!"unknown operator `{op}`: {s.text source}"
  | .unboundIdentifier name _ => s!"unbound identifier `{name}`"
  | .internal e => s!"internal compiler error: {e.render}"

/-- The error for a reader who has the source at hand. -/
def report (source : List Char) (e : CompileError) : String :=
  match e.span? with
  | some s =>
    let p := s.position source
    s!"line {p.line}, col {p.column}: {e.quote source}"
  | none => e.quote source

/-! ## The trace -/

private def spanParts (s : Span) : String :=
  "Span " ++ leftBrace ++ s!" start: {s.start}, end: {s.stop} " ++ rightBrace

private def fields (name : String) (parts : List (String × String)) : String :=
  let list := ", ".intercalate (parts.map fun (key, value) => s!"{key}: {value}")
  s!"{name} " ++ leftBrace ++ s!" {list} " ++ rightBrace

private def parseParts : ParseError → String
  | .expected what s => fields "Expected" [("expected", quoted what.render), ("span", spanParts s)]
  | .unexpectedEnd what s => fields "UnexpectedEnd" [("expected", quoted what.render), ("span", spanParts s)]
  | .unterminatedString s => s!"UnterminatedString({spanParts s})"
  | .badUnaryMinus s => s!"BadUnaryMinus({spanParts s})"

def trace : CompileError → String
  | .parse e => s!"Parse({parseParts e})"
  | .malformed fault s =>
    fields "MalformedNode"
      [("construct", quoted fault.construct), ("reason", quoted fault.reason), ("span", spanParts s)]
  | .unknownOperator op s => fields "UnknownOperator" [("operator", quoted op), ("span", spanParts s)]
  | .unboundIdentifier name s =>
    fields "UnboundIdentifier" [("name", quoted name), ("span", spanParts s)]
  | .internal e => s!"Internal({quoted e.render})"

end CompileError
end Bies
