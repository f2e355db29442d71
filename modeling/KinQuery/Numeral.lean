import KinQuery.Text.Digit

/-! Numerals: integers of 64 bits, from -2^63 up to 2^63 - 1. Arithmetic is exact, and refused
where its result does not fit; no operation wraps. -/
namespace KinQuery

structure Numeral where
  val : Int
  lower : -9223372036854775808 ≤ val
  upper : val < 9223372036854775808
  deriving DecidableEq

/-- Why a text of decimal digits spells no numeral. -/
inductive NumeralFault where
  | tooLarge
  | tooSmall
  | invalidDigit
  deriving DecidableEq

namespace NumeralFault

def message : NumeralFault → String
  | .tooLarge => "number too large to fit in target type"
  | .tooSmall => "number too small to fit in target type"
  | .invalidDigit => "invalid digit found in string"

end NumeralFault

namespace Numeral

/-- The numeral of an integer, if it has one. -/
def ofInt? (n : Int) : Option Numeral :=
  if h : -9223372036854775808 ≤ n ∧ n < 9223372036854775808 then some ⟨n, h.1, h.2⟩ else none

theorem ofInt?_eq_some_iff {n : Int} {m : Numeral} : ofInt? n = some m ↔ m.val = n := by
  unfold ofInt?
  split
  · rename_i h
    constructor
    · intro hm
      cases hm
      rfl
    · intro hm
      cases m
      cases hm
      rfl
  · rename_i h
    constructor
    · intro hm
      cases hm
    · intro hm
      exact absurd ⟨hm ▸ m.lower, hm ▸ m.upper⟩ h

/-- The numeral nearest to an integer. -/
def nearest (n : Int) : Numeral :=
  if h : n < -9223372036854775808 then ⟨-9223372036854775808, by decide, by decide⟩
  else if h' : n < 9223372036854775808 then ⟨n, Int.not_lt.1 h, h'⟩
  else ⟨9223372036854775807, by decide, by decide⟩

theorem val_nearest {n : Int} (lower : -9223372036854775808 ≤ n) (upper : n < 9223372036854775808) :
    (nearest n).val = n := by
  unfold nearest
  rw [dif_neg (Int.not_lt.2 lower), dif_pos upper]

def zero : Numeral := ⟨0, by decide, by decide⟩
def one : Numeral := ⟨1, by decide, by decide⟩

def text (n : Numeral) : String := toString n.val

def add? (a b : Numeral) : Option Numeral := ofInt? (a.val + b.val)
def sub? (a b : Numeral) : Option Numeral := ofInt? (a.val - b.val)
def mul? (a b : Numeral) : Option Numeral := ofInt? (a.val * b.val)

/-- The quotient, rounded toward zero. The divisor is not zero. -/
def div? (a b : Numeral) : Option Numeral := ofInt? (a.val.tdiv b.val)

/-- The remainder of the quotient rounded toward zero. It is refused together with the
quotient: the least numeral has no remainder by minus one. -/
def mod? (a b : Numeral) : Option Numeral :=
  (div? a b).bind fun _ => ofInt? (a.val.tmod b.val)

/-- An optional minus sign and at least one decimal digit of any script. -/
def isSpelling : List Char → Bool
  | '-' :: cs => !cs.isEmpty && cs.all Text.isDecimalDigit
  | cs => !cs.isEmpty && cs.all Text.isDecimalDigit

/-- Reads digits one by one onto `total`, to the side of zero that `negative` says. The first
digit that cannot be read or does not fit decides the fault. -/
def readDigits (negative : Bool) (total : Numeral) : List Char → Except NumeralFault Numeral
  | [] => .ok total
  | c :: cs =>
    match Text.digitValue? c with
    | none => .error .invalidDigit
    | some digit =>
      match ofInt? (10 * total.val + if negative then -(digit : Int) else digit) with
      | none => .error (if negative then .tooSmall else .tooLarge)
      | some total => readDigits negative total cs

/-- The numeral that a spelling stands for. -/
def read (text : String) : Except NumeralFault Numeral :=
  match text.toList with
  | '-' :: cs => readDigits true zero cs
  | cs => readDigits false zero cs

end Numeral
end KinQuery
