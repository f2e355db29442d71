import KinQuery.Double.Shortest
import KinQuery.Text.Digit

/-! Numbers in documents: integers, and binary fractions for all that is no integer or too
large for one. -/
namespace KinQuery

inductive Number where
  | integer (n : Int)
  | real (x : Double)
  deriving DecidableEq

namespace Number

def text : Number → String
  | integer n => toString n
  | real x => x.text

def isZero : Number → Bool
  | integer n => n = 0
  | real (.finite _ units) => units = 0
  | real _ => false

/-- How a number is spelled: `-12.50e3` is negative and has the whole digits `12`, the fraction
`50` and the exponent 3. -/
structure Spelling where
  negative : Bool
  whole : List Char
  fraction : List Char := []
  exponent : Option Int := none
  deriving DecidableEq

namespace Spelling

/-- Without a fraction or an exponent. -/
def isInteger (s : Spelling) : Bool :=
  s.fraction.isEmpty && s.exponent.isNone

/-- The number that a run of ASCII digits spells. -/
def valueOf (digits : List Char) : Nat :=
  (Text.readNat? digits).getD 0

/-- The number nearest to what is spelled; there is none if it would be too large. -/
def nearest? (s : Spelling) : Option Double :=
  (Double.ofDecimal? (valueOf (s.whole ++ s.fraction))
    (s.exponent.getD 0 - s.fraction.length)).map (.finite s.negative)

end Spelling

/-! ### Limited significands

A significand of 64 bits takes as many digits as fit. The digits left over only count: those
before the point raise the exponent, those after it are dropped. The result may miss the
nearest number by a last digit. -/

/-- Takes digits into a significand while it stays below 2^64; what is left over comes with it. -/
def takeFitting (significand : Nat) : List Char → Nat × List Char
  | [] => (significand, [])
  | digit :: digits =>
    let next := 10 * significand + (digit.toNat - '0'.toNat)
    if next < 18446744073709551616 then takeFitting next digits else (significand, digit :: digits)

/-- The largest power of ten that is a finite number. -/
def lastPower : Nat := 308

/-- A magnitude times a power of ten, in one step if the power is finite. Smaller powers are
divided by in several steps. -/
def scaled? (units : Nat) (exponent : Int) : Option Nat :=
  if exponent.natAbs ≤ lastPower then do
    let power ← Double.nearest? (Nat.pow 10 exponent.natAbs) 1
    if 0 ≤ exponent then Double.times? units power else Double.over? units power
  else if units = 0 then some 0
  else if 0 ≤ exponent then none
  else do
    let power ← Double.nearest? (Nat.pow 10 lastPower) 1
    let units ← Double.over? units power
    scaled? units (exponent + lastPower)
termination_by exponent.natAbs
decreasing_by simp only [lastPower] at *; omega

/-- The number that a spelling stands for, read with a limited significand. Integers have up to
64 bits; larger ones and a negative zero are binary fractions. There is no number if it would
be too large. -/
def ofSpelling? (s : Spelling) : Option Number :=
  let (significand, left) := takeFitting 0 s.whole
  if s.isInteger && left.isEmpty && !s.negative then some (.integer significand)
  else if s.isInteger && left.isEmpty && 0 < significand && significand ≤ 9223372036854775808 then
    some (.integer (-(significand : Int)))
  else
    let (significand, dropped) := takeFitting significand s.fraction
    let exponent : Int := s.exponent.getD 0 + left.length - (s.fraction.length - dropped.length : Nat)
    ((Double.nearest? significand 1).bind (scaled? · exponent)).map fun units =>
      .real (.finite s.negative units)

end Number
end KinQuery
