import KinQuery.Double.Basic

/-! Numbers as decimal texts: the fewest digits that read back as the number, without an
exponent. -/
namespace KinQuery

/-- The number `digits · 10 ^ exponent`. -/
structure Decimal where
  digits : Nat
  exponent : Int
  deriving DecidableEq

namespace Decimal

/-- The digits around a point, without needless zeros before it or after it. -/
def text (d : Decimal) : String :=
  if 0 ≤ d.exponent then toString (d.digits * Nat.pow 10 d.exponent.toNat)
  else
    let places := (-d.exponent).toNat
    let digits := Nat.toDigits 10 d.digits
    let digits := List.replicate (places + 1 - digits.length) '0' ++ digits
    let whole := digits.take (digits.length - places)
    let fraction := ((digits.drop whole.length).reverse.dropWhile (· = '0')).reverse
    .ofList (if fraction.isEmpty then whole else whole ++ '.' :: fraction)

end Decimal

namespace Double

/-- Whether a decimal lies among the numbers that round to a magnitude: between the middles of
the gaps at its sides, which belong to them if the significand is even. The gap below a power of
two is half as wide as the one above. All is counted in quarters of units. -/
def readsBack (units : Nat) (d : Decimal) : Bool :=
  let step := gap units
  let low := if 1 < step && units = Nat.pow 2 (precision - 1) * step then step else 2 * step
  let scale := Nat.pow 10 (-d.exponent).toNat
  let point := d.digits * Nat.pow 10 d.exponent.toNat * (4 * one)
  let least := (4 * units - low) * scale
  let greatest := (4 * units + 2 * step) * scale
  (least < point && point < greatest) ||
    (units / step % 2 = 0 && (point = least || point = greatest))

/-- The multiple of a power of ten that reads back as a magnitude: one of its two neighbours
there, the nearer one if both do, and the upper one if both are equally near. -/
def onGrid? (units : Nat) (exponent : Int) : Option Decimal :=
  let num := units * Nat.pow 10 (-exponent).toNat
  let den := one * Nat.pow 10 exponent.toNat
  let below : Decimal := ⟨num / den, exponent⟩
  let above : Decimal := ⟨num / den + 1, exponent⟩
  match readsBack units below, readsBack units above with
  | true, true => some (if 2 * num < (2 * below.digits + 1) * den then below else above)
  | true, false => some below
  | false, true => some above
  | false, false => none

/-- A power of ten above a magnitude, at most twice ten times as large. -/
def topExponent (units : Nat) : Int :=
  ((units.log2 + 1) * 30103 / 100000 + 1 : Nat) - 323

/-- The shortest decimal that reads back as a magnitude: the one on the coarsest grid that has
one. Should there be none, it is the magnitude itself, exactly. -/
def shortest (units : Nat) : Decimal :=
  ((List.range 20).findSome? fun (n : Nat) => onGrid? units (topExponent units - n)).getD
    ⟨units * Nat.pow 5 1074, -1074⟩

def text : Double → String
  | finite negative units =>
    (if negative then "-" else "") ++ if units = 0 then "0" else (shortest units).text
  | infinite negative => if negative then "-inf" else "inf"
  | nan => "NaN"

end Double
end KinQuery
