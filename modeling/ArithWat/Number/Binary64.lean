import ArithWat.Number.Decimal

/-!
# Binary floating-point numbers of 64 bits

The values that a non-negative binary64 number can have, and the one nearest to a
decimal number.  A finite value is a whole number of *units* of `2 ^ (-1074)`,
the distance of the smallest value from zero.  A value of `b` binary digits is a
multiple of `2 ^ (b - 53)` units, so above `2 ^ 53` units the values thin out;
from `2 ^ 2098` units on there is only infinity.
-/

namespace ArithWat

/-- A non-negative binary64 value. -/
inductive Binary64 where
  /-- A number of units of `2 ^ (-1074)`. -/
  | finite (units : Nat)
  | infinite
  deriving DecidableEq, Repr

namespace Binary64

/-- The units in one. -/
def one : Nat := Nat.pow 2 1074

/-- The units in the least power of two that is too large. -/
def overflow : Nat := Nat.pow 2 2098

/-- The quotient `n / d` rounded to the nearest whole number, a half to the even
one. -/
def roundQuotient (n d : Nat) : Nat :=
  let q := n / d
  let r := n % d
  if 2 * r < d then q else if d < 2 * r then q + 1 else q + q % 2

/-- The distance in units between neighbouring values at a number of units. -/
def grid (units : Nat) : Nat := Nat.pow 2 (units.log2 - 52)

/-- **The value nearest to `n / d`**, of two the even one. -/
def ofQuotient (n d : Nat) : Binary64 :=
  let step := grid (n * one / d)
  let units := roundQuotient (n * one) (d * step) * step
  if units < overflow then .finite units else .infinite

/-- **The value nearest to a decimal number**, of two the even one.  Beyond `10 ^ 400`
and below `10 ^ (-400)` the answer is infinity and zero, without writing the
power of ten out. -/
def ofDecimal (x : Decimal) : Binary64 :=
  match x.exponent with
  | .ofNat e =>
    if x.digits = 0 then .finite 0
    else if 400 ≤ e then .infinite
    else ofQuotient (x.digits * Nat.pow 10 e) 1
  | .negSucc e =>
    if x.digits.log2 + 401 ≤ e then .finite 0 else ofQuotient x.digits (Nat.pow 10 (e + 1))

end Binary64

end ArithWat
