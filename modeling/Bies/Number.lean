import Bies.Number.Shortest
import Bies.Text.Digits

/-!
# Numbers

The language has whole numbers of 64 bits and floats. Here they are read, written and combined.
Arithmetic on known numbers is done at compile time only where the result is beyond doubt: a whole
number that does not fit, a division by zero or a result that is not finite is no number.
-/

namespace Bies

inductive Number where
  | int (n : Int64)
  | float (x : Float)

/-! ## Reading -/

/-- A leading sign, true if it is a minus, and what follows it. -/
def splitSign : List Char → Bool × List Char
  | '-' :: rest => (true, rest)
  | '+' :: rest => (false, rest)
  | text => (false, text)

/-- The whole number as a number of 64 bits, if it is one. -/
def int64? (n : Int) : Option Int64 :=
  if Int64.minValue.toInt ≤ n ∧ n ≤ Int64.maxValue.toInt then some (.ofInt n) else none

/-- Decimal digits, at least one, with an optional sign in front. -/
def readInt? (text : List Char) : Option Int64 := do
  let (negative, digits) := splitSign text
  let n ← readDigits? digits
  int64? (if negative then -n else n)

/-- `digits` · 10^`exponent`, rounded to the nearest float. Powers of ten that no float reaches are cut
off before they are computed. -/
def floatOfDecimal (digits : Nat) (exponent : Int) : Float :=
  let magnitude := (Nat.toDigits 10 digits).length + exponent
  if digits = 0 ∨ magnitude < -400 then 0.0
  else if 400 < magnitude then 1.0 / 0.0
  else .ofScientific digits (exponent < 0) exponent.natAbs

/-- The exponent at the end of a decimal: nothing, or `e` and a whole number. -/
def readExponent? : List Char → Option Int
  | [] => some 0
  | c :: rest =>
    if c = 'e' ∨ c = 'E' then
      let (negative, digits) := splitSign rest
      (readDigits? digits).map fun n => if negative then -n else n
    else none

/-- A decimal without a sign: digits on at least one side of an optional point, then an exponent. -/
def readDecimal? (text : List Char) : Option Float := do
  let whole := text.takeWhile Char.isDigit
  let afterWhole := text.dropWhile Char.isDigit
  let afterPoint := match afterWhole with
    | '.' :: rest => rest
    | _ => []
  let fraction := afterPoint.takeWhile Char.isDigit
  guard (whole ++ fraction ≠ [])
  let rest := match afterWhole with
    | '.' :: rest => rest.dropWhile Char.isDigit
    | _ => afterWhole
  let exponent ← readExponent? rest
  return floatOfDecimal (digitsValue (whole ++ fraction)) (exponent - fraction.length)

/-- A decimal, or the name of an infinity or of no number, in letters of either case, with an optional
sign in front. -/
def readFloat? (text : List Char) : Option Float := do
  let (negative, body) := splitSign text
  let word := String.ofList (body.map Char.toLower)
  let x ←
    if word = "inf" ∨ word = "infinity" then some (1.0 / 0.0)
    else if word = "nan" then some (0.0 / 0.0)
    else readDecimal? body
  return if negative then -x else x

/-! ## Writing -/

def renderInt (n : Int64) : String := toString n.toInt

/-- The digits with a point, or with an exponent if the number is below 10⁻⁴ or not below 10¹⁶. -/
def Decimal.render (d : Decimal) : String :=
  let digits := Nat.toDigits 10 d.digits
  let exponent := d.exponent + digits.length - 1
  String.ofList <|
    if -4 ≤ exponent ∧ exponent < 16 then
      if 0 ≤ d.exponent then digits ++ List.replicate d.exponent.toNat '0' ++ ['.', '0']
      else if 0 ≤ exponent then digits.take (exponent.toNat + 1) ++ '.' :: digits.drop (exponent.toNat + 1)
      else '0' :: '.' :: List.replicate (-exponent - 1).toNat '0' ++ digits
    else
      let point := if digits.length = 1 then [] else '.' :: digits.drop 1
      digits.take 1 ++ point ++ 'e' :: (toString exponent).toList

/-- The shortest decimal that reads back, always with a point or an exponent. -/
def renderFloat (x : Float) : String :=
  if x.isNaN then "NaN"
  else
    let sign := if x.toBits >>> 63 = 1 then "-" else ""
    let body :=
      if x.isInf then "inf"
      else if x == 0.0 then "0.0"
      else (Binary.ofFloat x).shortest.render
    sign ++ body

/-! ## Combining -/

namespace Number

def toFloat : Number → Float
  | .int n => n.toFloat
  | .float x => x

def render : Number → String
  | .int n => renderInt n
  | .float x => renderFloat x

/-- The result of an operation on floats, if it is finite. -/
def combineFloat? (a : Float) (op : String) (b : Float) : Option Number := do
  let x ← match op with
    | "+" => some (a + b)
    | "-" => some (a - b)
    | "*" => some (a * b)
    | "/" => if b == 0.0 then none else some (a / b)
    | "**" => some (a ^ b)
    | _ => none
  if x.isFinite then some (.float x) else none

/-- The power of a whole number. A base other than 0, 1 and -1 outgrows 64 bits with the exponent 64. -/
def power? (a : Int) (exponent : Nat) : Option Int64 :=
  if a = 0 then int64? (if exponent = 0 then 1 else 0)
  else if a = 1 ∨ a = -1 then int64? (if exponent % 2 = 0 then 1 else a)
  else if exponent < 64 then int64? (Int.pow a exponent)
  else none

/-- The result of an operation on whole numbers. A quotient that is not whole and a power with a
negative exponent are floats. -/
def combineInt? (a : Int64) (op : String) (b : Int64) : Option Number :=
  match op with
  | "+" => (int64? (a.toInt + b.toInt)).map .int
  | "-" => (int64? (a.toInt - b.toInt)).map .int
  | "*" => (int64? (a.toInt * b.toInt)).map .int
  | "/" =>
    if b = 0 then none
    else if a.toInt % b.toInt = 0 then (int64? (a.toInt / b.toInt)).map .int
    else combineFloat? a.toFloat op b.toFloat
  | "**" =>
    if b < 0 then combineFloat? a.toFloat op b.toFloat
    else if b.toInt.toNat < UInt32.size then (power? a.toInt b.toInt.toNat).map .int
    else none
  | _ => none

/-- The number that `left op right` is known to be. -/
def combine? (left : Number) (op : String) (right : Number) : Option Number :=
  match left, right with
  | .int a, .int b => combineInt? a op b
  | _, _ => combineFloat? left.toFloat op right.toFloat

end Number
end Bies
