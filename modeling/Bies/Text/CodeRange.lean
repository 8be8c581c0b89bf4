/-!
# Ranges of code points

A character class is kept as a list of closed ranges of code points.
-/

namespace Bies

/-- The code points from the first number to the second, both included. -/
abbrev CodeRange := Nat × Nat

/-- One of the ranges holds the character. -/
def CodeRange.covers (ranges : List CodeRange) (c : Char) : Bool :=
  ranges.any fun r => r.1 ≤ c.toNat && c.toNat ≤ r.2

end Bies
