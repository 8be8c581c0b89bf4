/-!
# The shortest decimal of a float

A finite float is a number m · 2^q, and every real between the midpoints to its two neighbours reads
back as it. `Binary.shortest` picks, among the decimals that read back, one with the fewest digits,
and of those the nearest. All comparisons are between natural numbers.
-/

namespace Bies

/-- The number `mantissa` · 2^`exponent`, the absolute value of a finite float. -/
structure Binary where
  mantissa : Nat
  exponent : Int
  /-- The next smaller float is half as far away as the next larger one. -/
  closerBelow : Bool

/-- The number `digits` · 10^`exponent`. -/
structure Decimal where
  digits : Nat
  exponent : Int
deriving DecidableEq, Repr

/-- Moves up to `limit` zeros at the end of the digits into the exponent. -/
def Decimal.strip : Nat → Decimal → Decimal
  | 0, d => d
  | limit + 1, d =>
    if d.digits ≠ 0 ∧ d.digits % 10 = 0 then strip limit ⟨d.digits / 10, d.exponent + 1⟩ else d

namespace Binary

/-- The first bit of a mantissa, 2⁵², which a float does not store. -/
def hiddenBit : Nat := 0x10000000000000

/-- The absolute value of a finite float. -/
def ofFloat (x : Float) : Binary :=
  let bits := x.toBits.toNat
  let fraction := bits % hiddenBit
  let exponent : Nat := bits / hiddenBit % 0x800
  if exponent = 0 then ⟨fraction, -1074, false⟩
  else ⟨hiddenBit + fraction, (exponent : Int) - 1075, fraction = 0 && exponent > 1⟩

/-! The interval is measured in quarters of the last place: so its ends are whole numbers. -/

def middle (x : Binary) : Nat := 4 * x.mantissa

def low (x : Binary) : Nat := x.middle - (if x.closerBelow then 1 else 2)

def high (x : Binary) : Nat := x.middle + 2

/-- With `(a, b)` the result, n quarters of the last place are n · a / b units of 10^k. -/
def scale (x : Binary) (k : Int) : Nat × Nat :=
  let e := x.exponent - 2
  (Nat.pow 2 e.toNat * Nat.pow 10 (-k).toNat, Nat.pow 2 (-e).toNat * Nat.pow 10 k.toNat)

/-- `n` units of 10^k read back as `x`. The ends belong to the interval if the mantissa is even. -/
def readsBack (x : Binary) (k : Int) (n : Nat) : Bool :=
  let (a, b) := x.scale k
  if x.mantissa % 2 = 0 then x.low * a ≤ n * b && n * b ≤ x.high * a
  else x.low * a < n * b && n * b < x.high * a

/-- The nearest number of units of 10^k that reads back, if one does. A tie goes up. -/
def nearest? (x : Binary) (k : Int) : Option Nat :=
  let (a, b) := x.scale k
  let below := x.middle * a / b
  match x.readsBack k below, x.readsBack k (below + 1) with
  | true, true => some (if 2 * x.middle * a < (2 * below + 1) * b then below else below + 1)
  | true, false => some below
  | false, true => some (below + 1)
  | false, false => none

/-- The least e with `x` < 10^e, for a number that is not zero. -/
def magnitude (x : Binary) : Int :=
  let places : Nat := if x.exponent < 0 then 400 else 0
  let (a, b) := x.scale (-places)
  (Nat.toDigits 10 (x.middle * a / b)).length - places

/-- The shortest decimal that reads back as a number that is not zero. Seventeen digits always do. -/
def shortest (x : Binary) : Decimal :=
  let grid (n : Nat) : Int := x.magnitude - (n + 1)
  let found := (List.range 17).findSome? fun n =>
    (x.nearest? (grid n)).map fun d => (⟨d, grid n⟩ : Decimal)
  (found.getD ⟨0, 0⟩).strip 17

end Binary
end Bies
