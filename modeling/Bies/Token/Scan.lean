import Bies.Token
import Bies.Text.Alphabetic
import Bies.Text.Blank
import Bies.Text.Numeric

/-!
# Scanning a text into tokens

Blanks separate tokens. Every other character starts a token, and the token runs as far as its kind
allows: nothing is an error here, a string that is never closed runs to the end of the text.
-/

namespace Bies

def isIdentifierStart (c : Char) : Bool := isAlphabetic c || c == '_'

def isIdentifierPart (c : Char) : Bool := isAlphabetic c || isNumeric c || c == '_'

/-- The operators of two characters. -/
def isPair (c d : Char) : Bool :=
  (c, d) ∈ [('=', '='), ('!', '='), ('>', '='), ('<', '='), ('*', '*'), ('=', '>')]

/-- What a string holds behind its opening quote, up to and with the closing one, and the text after
that. A backslash hides the character after it; `escaped` says that one has just been read. -/
def splitString (escaped : Bool) : List Char → List Char × List Char
  | [] => ([], [])
  | c :: cs =>
    if c = '"' && !escaped then ([c], cs)
    else
      let (inside, rest) := splitString (c = '\\' && !escaped) cs
      (c :: inside, rest)

/-- The digits of a number behind the first one, and the text after it. A point belongs to the number
only if a digit follows. -/
def splitNumber (cs : List Char) : List Char × List Char :=
  let whole := cs.takeWhile Char.isDigit
  match cs.dropWhile Char.isDigit with
  | '.' :: d :: rest =>
    if d.isDigit then
      (whole ++ '.' :: d :: rest.takeWhile Char.isDigit, rest.dropWhile Char.isDigit)
    else (whole, '.' :: d :: rest)
  | rest => (whole, rest)

/-- The characters of a token, and the text behind it. -/
structure Lexeme where
  kind : TokenKind
  chars : List Char
  rest : List Char

/-- The token that starts with the character `c`, not a blank, followed by `cs`. -/
def Lexeme.split (c : Char) (cs : List Char) : Lexeme :=
  if c = '"' then
    let (inside, rest) := splitString false cs
    ⟨.string, c :: inside, rest⟩
  else if c = '/' && cs.head? = some '/' then
    ⟨.comment, c :: cs.takeWhile (· ≠ '\n'), cs.dropWhile (· ≠ '\n')⟩
  else if c.isDigit then
    let (digits, rest) := splitNumber cs
    ⟨.number, c :: digits, rest⟩
  else if isIdentifierStart c then
    ⟨.identifier, c :: cs.takeWhile isIdentifierPart, cs.dropWhile isIdentifierPart⟩
  else
    match cs with
    | d :: rest => if isPair c d then ⟨.punct, [c, d], rest⟩ else ⟨.punct, [c], cs⟩
    | [] => ⟨.punct, [c], []⟩

theorem splitString_append (escaped : Bool) (cs : List Char) :
    (splitString escaped cs).1 ++ (splitString escaped cs).2 = cs := by
  induction cs generalizing escaped with
  | nil => rfl
  | cons c cs ih => simp only [splitString]; split <;> simp [ih]

theorem splitNumber_append (cs : List Char) : (splitNumber cs).1 ++ (splitNumber cs).2 = cs := by
  have whole := List.takeWhile_append_dropWhile (p := Char.isDigit) (l := cs)
  simp only [splitNumber]
  split
  next d rest h =>
    rw [h] at whole
    split
    · simpa [List.takeWhile_append_dropWhile] using whole
    · exact whole
  next => exact whole

/-- A lexeme takes its characters off the front of the text. -/
theorem Lexeme.chars_append_rest (c : Char) (cs : List Char) :
    (split c cs).chars ++ (split c cs).rest = c :: cs := by
  simp only [split]
  split
  · simp [splitString_append]
  split
  · simp [List.takeWhile_append_dropWhile]
  split
  · simp [splitNumber_append]
  split
  · simp [List.takeWhile_append_dropWhile]
  split
  · split <;> simp
  · simp

theorem Lexeme.chars_ne_nil (c : Char) (cs : List Char) : (split c cs).chars ≠ [] := by
  simp only [split]
  repeat' split
  all_goals simp

theorem Lexeme.length_rest_le (c : Char) (cs : List Char) : (split c cs).rest.length ≤ cs.length := by
  have whole := congrArg List.length (chars_append_rest c cs)
  have some := List.length_pos_iff.2 (chars_ne_nil c cs)
  simp only [List.length_append, List.length_cons] at whole
  omega

namespace Token

/-- The tokens of a text that starts at the offset `start` of the source, comments included. -/
def scanFrom (start : Nat) : List Char → List Token
  | [] => []
  | c :: cs =>
    if isBlank c then scanFrom (start + c.utf8Size) cs
    else
      let lexeme := Lexeme.split c cs
      let stop := start + byteLength lexeme.chars
      ⟨lexeme.kind, .ofOffsets start stop, .ofList lexeme.chars⟩ :: scanFrom stop lexeme.rest
termination_by text => text.length
decreasing_by
  · simp
  · exact Nat.lt_succ_of_le (Lexeme.length_rest_le c cs)

/-- The tokens of a source text, in order. -/
def scan (source : List Char) : List Token := scanFrom 0 source

end Token
end Bies
