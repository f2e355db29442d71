import KinQuery.Value

/-! Dates: comparison, parts, and reading them from strings. -/
namespace KinQuery.Dates

def before (a b : Value) : Except Failure Value := do
  let d ← a.asDate Primitive.before.name
  let e ← b.asDate Primitive.before.name
  .ok (.boolean (d.before e))

def after (a b : Value) : Except Failure Value := do
  let d ← a.asDate Primitive.after.name
  let e ← b.asDate Primitive.after.name
  .ok (.boolean (e.before d))

/-- Whether a date lies between two others, or is one of them. -/
def during (a b c : Value) : Except Failure Value := do
  let d ← a.asDate Primitive.during.name
  let first ← b.asDate Primitive.during.name
  let last ← c.asDate Primitive.during.name
  .ok (.boolean (!d.before first && !last.before d))

/-- A number taken from a date. -/
def part (operation : String) (f : Date → Int) (a : Value) : Except Failure Value := do
  let d ← a.asDate operation
  .ok (.numeral (.nearest (f d)))

/-- A date as it is, or the date that a string spells. -/
def read : Value → Except Failure Value
  | .date d => .ok (.date d)
  | v => do
    let s ← v.asString Primitive.date.name
    if !Kind.date.accepts s then .error (.notDateSpelling s)
    else match Date.read? s with
      | some d => .ok (.date d)
      | none => .error (.notDate s)

end KinQuery.Dates
