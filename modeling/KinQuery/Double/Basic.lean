/-! Binary floating-point numbers of 64 bits.

The magnitude of a finite number is a natural number of units, a unit being the least positive
number, 2^-1074. So every operation is exact arithmetic on natural numbers, rounded once. -/
namespace KinQuery

inductive Double where
  | finite (negative : Bool) (units : Nat)
  | infinite (negative : Bool)
  | nan
  deriving DecidableEq

namespace Double

/-- How many units make one. -/
def one : Nat := Nat.pow 2 1074

/-- The number of binary digits of a significand. -/
def precision : Nat := 53

/-- The distance from a magnitude to the next one above it: significands have a fixed number of
binary digits, so it grows with the magnitude. -/
def gap (units : Nat) : Nat :=
  Nat.pow 2 (units.log2 + 1 - precision)

/-- The first magnitude in units that is too large. -/
def limit : Nat := Nat.pow 2 1024 * one

/-- A quotient rounded to a whole number, halves to the even neighbour. -/
def roundQuotient (num den : Nat) : Nat :=
  let q := num / den
  let r := num % den
  if 2 * r < den || (2 * r = den && q % 2 = 0) then q else q + 1

/-- The magnitude nearest to a quotient; of two equally near ones that with the even
significand. There is none if it would be too large. -/
def nearest? (num den : Nat) : Option Nat :=
  let step := gap (num * one / den)
  let units := roundQuotient (num * one) (den * step) * step
  if units < limit then some units else none

/-- The magnitude nearest to a product. -/
def times? (a b : Nat) : Option Nat :=
  nearest? (a * b) (one * one)

/-- The magnitude nearest to a quotient of magnitudes. -/
def over? (a b : Nat) : Option Nat :=
  nearest? a b

/-- The magnitude nearest to `digits · 10 ^ exponent`. -/
def ofDecimal? (digits : Nat) (exponent : Int) : Option Nat :=
  if digits = 0 then some 0
  else if 400 < exponent then none
  else if exponent + digits.log2 < -400 then some 0
  else nearest? (digits * Nat.pow 10 exponent.toNat) (Nat.pow 10 (-exponent).toNat)

end Double
end KinQuery
