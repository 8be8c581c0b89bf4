import Bies.Span

/-!
# What is wrong with a source that is no program
-/

namespace Bies

/-- What the parser was looking for. -/
inductive Expectation where
  | symbol (text : String)
  | identifier
  | declaration
  | expression
deriving DecidableEq, Repr

def Expectation.render : Expectation → String
  | .symbol text => s!"`{text}`"
  | .identifier => "identifier"
  | .declaration => "`let` or `const` declaration"
  | .expression => "expression"

inductive ParseError where
  /-- Another token stands where `what` should. -/
  | expected (what : Expectation) (found : Span)
  /-- The source ends where `what` should stand. -/
  | unexpectedEnd (what : Expectation) (stop : Span)
  /-- A string without its closing quote. -/
  | unterminatedString (string : Span)
  /-- A minus sign in front of something other than a number. -/
  | badUnaryMinus (operand : Span)
deriving DecidableEq, Repr

namespace ParseError

def span : ParseError → Span
  | .expected _ s | .unexpectedEnd _ s | .unterminatedString s | .badUnaryMinus s => s

/-- The error with the offsets of its place. -/
def message : ParseError → String
  | .expected what s => s!"expected {what.render} at {s.render}"
  | .unexpectedEnd what s => s!"unexpected end of input at {s.render}, expected {what.render}"
  | .unterminatedString s => s!"unterminated string at {s.render}"
  | .badUnaryMinus s => s!"unary minus only applies to number literals at {s.render}"

/-- The error with the text at its place. -/
def quote (source : List Char) : ParseError → String
  | .expected what s => s!"expected {what.render} but found `{s.text source}`"
  | .unexpectedEnd what _ => s!"unexpected end of input, expected {what.render}"
  | .unterminatedString s => s!"unterminated string: {s.text source}"
  | .badUnaryMinus s => s!"unary minus only applies to number literals: {s.text source}"

end ParseError
end Bies
