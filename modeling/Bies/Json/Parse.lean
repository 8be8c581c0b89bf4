import Bies.Json
import Bies.Text.Digits

/-!
# Reading JSON

The strict grammar: no comments, no trailing commas, no bare control characters in strings.
-/

namespace Bies.Json

def isSpace (c : Char) : Bool := c = ' ' || c = '\t' || c = '\n' || c = '\r'

def skipSpace (text : List Char) : List Char := text.dropWhile isSpace

/-! ## Strings -/

def hexDigit? (c : Char) : Option Nat :=
  if c.isDigit then some (c.toNat - '0'.toNat)
  else if 'a' ≤ c ∧ c ≤ 'f' then some (c.toNat - 'a'.toNat + 10)
  else if 'A' ≤ c ∧ c ≤ 'F' then some (c.toNat - 'A'.toNat + 10)
  else none

def escape? : Char → Option Nat
  | '"' => some 0x22
  | '\\' => some 0x5C
  | '/' => some 0x2F
  | 'b' => some 0x08
  | 'f' => some 0x0C
  | 'n' => some 0x0A
  | 'r' => some 0x0D
  | 't' => some 0x09
  | _ => none

/-- The code points and 16-bit units that a string spells behind its opening quote, and the text after
the closing one. -/
def stringUnits? : List Char → Option (List Nat × List Char)
  | [] => none
  | '"' :: rest => some ([], rest)
  | '\\' :: 'u' :: a :: b :: c :: d :: rest => do
    let unit := (((← hexDigit? a) * 16 + (← hexDigit? b)) * 16 + (← hexDigit? c)) * 16 + (← hexDigit? d)
    let (units, rest) ← stringUnits? rest
    return (unit :: units, rest)
  | '\\' :: c :: rest => do
    let unit ← escape? c
    let (units, rest) ← stringUnits? rest
    return (unit :: units, rest)
  | c :: rest => do
    guard (0x20 ≤ c.toNat)
    let (units, rest) ← stringUnits? rest
    return (c.toNat :: units, rest)

def isHighSurrogate (n : Nat) : Bool := 0xD800 ≤ n && n < 0xDC00

def isLowSurrogate (n : Nat) : Bool := 0xDC00 ≤ n && n < 0xE000

/-- The text of code points and surrogate pairs; none if half of a pair stands alone. -/
def textOfUnits? : List Nat → Option (List Char)
  | [] => some []
  | [n] => if isHighSurrogate n || isLowSurrogate n then none else some [.ofNat n]
  | n :: m :: rest =>
    if isHighSurrogate n then
      if isLowSurrogate m then
        (textOfUnits? rest).map (.ofNat (0x10000 + (n - 0xD800) * 0x400 + (m - 0xDC00)) :: ·)
      else none
    else if isLowSurrogate n then none
    else (textOfUnits? (m :: rest)).map (.ofNat n :: ·)

/-- The text of a string behind its opening quote, if it spells one, and the text after it. -/
def string? (text : List Char) : Option (Option String × List Char) := do
  let (units, rest) ← stringUnits? text
  return ((textOfUnits? units).map .ofList, rest)

/-! ## Numbers -/

/-- Digits, at least one, and the text after them. -/
def digits? (text : List Char) : Option (List Char × List Char) :=
  match text.takeWhile Char.isDigit with
  | [] => none
  | digits => some (digits, text.dropWhile Char.isDigit)

/-- What may follow the whole part of a number: a point with digits and an exponent. True if something
does. -/
def numberTail? (text : List Char) : Option (Bool × List Char) := do
  let (hasPoint, text) ← match text with
    | '.' :: rest => (digits? rest).map fun (_, rest) => (true, rest)
    | _ => some (false, text)
  match text with
  | e :: rest =>
    if e = 'e' ∨ e = 'E' then
      let rest := match rest with
        | s :: more => if s = '+' ∨ s = '-' then more else rest
        | [] => rest
      (digits? rest).map fun (_, rest) => (true, rest)
    else some (hasPoint, text)
  | [] => some (hasPoint, text)

/-- A number. A whole part of several digits does not start with a zero. -/
def number? (text : List Char) : Option (Json × List Char) := do
  let (negative, text) := match text with
    | '-' :: rest => (true, rest)
    | _ => (false, text)
  let (digits, text) ← digits? text
  guard (digits.head? ≠ some '0' ∨ digits.length = 1)
  let (tail, text) ← numberTail? text
  return (if negative || tail then .number else .nat (digitsValue digits), text)

/-! ## Values

Every value, item and field spends one unit of a budget, and takes at least one character. -/

mutual

/-- A value, and the text after it. -/
def value? : Nat → List Char → Option (Json × List Char)
  | 0, _ => none
  | n + 1, text =>
    match skipSpace text with
    | '"' :: rest => (string? rest).map fun (s, rest) => (.str s, rest)
    | '[' :: rest =>
      match skipSpace rest with
      | ']' :: rest => some (.arr [], rest)
      | rest => (items? n rest).map fun (items, rest) => (.arr items, rest)
    | '\x7b' :: rest =>
      match skipSpace rest with
      | '\x7d' :: rest => some (.obj [], rest)
      | rest => (fields? n rest).map fun (fields, rest) => (.obj fields, rest)
    | 't' :: 'r' :: 'u' :: 'e' :: rest => some (.bool true, rest)
    | 'f' :: 'a' :: 'l' :: 's' :: 'e' :: rest => some (.bool false, rest)
    | 'n' :: 'u' :: 'l' :: 'l' :: rest => some (.null, rest)
    | rest => number? rest

/-- Values with commas between them, and the text after the closing bracket. -/
def items? : Nat → List Char → Option (List Json × List Char)
  | 0, _ => none
  | n + 1, text => do
    let (item, rest) ← value? n text
    match skipSpace rest with
    | ',' :: rest => (items? n rest).map fun (items, rest) => (item :: items, rest)
    | ']' :: rest => return ([item], rest)
    | _ => none

/-- Names with values and commas between them, and the text after the closing brace. -/
def fields? : Nat → List Char → Option (List (Option String × Json) × List Char)
  | 0, _ => none
  | n + 1, text =>
    match skipSpace text with
    | '"' :: rest => do
      let (name, rest) ← string? rest
      match skipSpace rest with
      | ':' :: rest =>
        let (value, rest) ← value? n rest
        match skipSpace rest with
        | ',' :: rest => (fields? n rest).map fun (fields, rest) => ((name, value) :: fields, rest)
        | '\x7d' :: rest => return ([(name, value)], rest)
        | _ => none
      | _ => none
    | _ => none

end

/-- The value that a text spells, with nothing but space around it. -/
def parse? (text : List Char) : Option Json := do
  let (value, rest) ← value? (2 * text.length + 2) text
  guard (skipSpace rest = [])
  return value

end Bies.Json
