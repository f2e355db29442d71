import KinQuery.Value

/-! Arithmetic and comparison of numerals. -/
namespace KinQuery.Numerals

/-- Refuses a result that is no numeral. -/
def inRange (operation : String) : Option Numeral → Except Failure Value
  | some n => .ok (.numeral n)
  | none => .error (.overflow operation)

/-- Combines the arguments from left to right; each is checked when its turn comes. -/
def fold (operation : String) (step : Numeral → Numeral → Option Numeral) :
    Numeral → List Value → Except Failure Value
  | total, [] => .ok (.numeral total)
  | total, a :: arguments => do
    let n ← a.asNumeral operation
    match step total n with
    | some total => fold operation step total arguments
    | none => .error (.overflow operation)

def sum (arguments : List Value) : Except Failure Value :=
  fold Primitive.add.name Numeral.add? .zero arguments

def product (arguments : List Value) : Except Failure Value :=
  fold Primitive.multiply.name Numeral.mul? .one arguments

def difference (a b : Value) : Except Failure Value := do
  let m ← a.asNumeral Primitive.subtract.name
  let n ← b.asNumeral Primitive.subtract.name
  inRange Primitive.subtract.name (m.sub? n)

/-- A divisor, which is not zero. -/
def divisor (operation : String) (b : Value) : Except Failure Numeral := do
  let n ← b.asNumeral operation
  if n = .zero then .error (.byZero operation) else .ok n

def quotient (a b : Value) : Except Failure Value := do
  let m ← a.asNumeral Primitive.divide.name
  let n ← divisor Primitive.divide.name b
  inRange Primitive.divide.name (m.div? n)

def remainder (a b : Value) : Except Failure Value := do
  let m ← a.asNumeral Primitive.remainder.name
  let n ← divisor Primitive.remainder.name b
  inRange Primitive.remainder.name (m.mod? n)

def compare (operation : String) (test : Int → Int → Bool) (a b : Value) :
    Except Failure Value := do
  let m ← a.asNumeral operation
  let n ← b.asNumeral operation
  .ok (.boolean (test m.val n.val))

end KinQuery.Numerals
