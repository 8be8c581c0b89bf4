import Bies.Span

/-!
# Tokens
-/

namespace Bies

inductive TokenKind where
  /-- A name or a keyword. -/
  | identifier
  /-- Decimal digits, with an optional point inside. -/
  | number
  /-- A text in double quotes; the closing quote may be missing. -/
  | string
  /-- An operator or a bracket. -/
  | punct
  /-- From `//` to the end of the line. -/
  | comment
deriving DecidableEq, Repr

structure Token where
  kind : TokenKind
  span : Span
  /-- What was read. It is the text under the span in a source of fewer than 2³² bytes; in a longer one offsets
  wrap. -/
  text : String
deriving DecidableEq, Repr

namespace Token

/-- The token is the operator, bracket or word `text`. -/
def isSymbol (t : Token) (text : String) : Bool :=
  (t.kind == .punct || t.kind == .identifier) && t.text == text

/-- The words that name no variable. -/
def keywords : List String := ["let", "const", "fun", "if", "else", "return", "print", "in"]

end Token
end Bies
