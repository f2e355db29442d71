import KinQuery.Value

/-! Strings. Positions count characters. -/
namespace KinQuery.Strings

def concat (arguments : List Value) : Except Failure Value := do
  let strings ← arguments.mapM (·.asString Primitive.concat.name)
  .ok (.string (String.join strings))

/-- The list of the characters of a string. -/
def chars (a : Value) : Except Failure Value := do
  let s ← a.asString Primitive.chars.name
  .ok (.list (s.toList.map fun c => .string (String.singleton c)))

/-- The part of a string from one position up to another, within its bounds. -/
def slice (s : String) (first last : Int) : Except Failure Value :=
  if first < 0 || (s.length : Int) < last || last < first then
    .error (.substringBounds first last s.length)
  else .ok (.string (.ofList ((s.toList.drop first.toNat).take (last - first).toNat)))

/-- A part of a string; without a second position it runs to the end. -/
def substring (arguments : List Value) : Except Failure Value := do
  let operation := Primitive.substring.name
  match arguments with
  | [a, b] =>
    let s ← a.asString operation
    let first ← b.asNumeral operation
    slice s first.val s.length
  | [a, b, c] =>
    let s ← a.asString operation
    let first ← b.asNumeral operation
    let last ← c.asNumeral operation
    slice s first.val last.val
  | _ =>
    .error (.wrongArgumentCount operation Primitive.substring.arity arguments.length)

/-- The digits of a numeral. -/
def ofNumeral (a : Value) : Except Failure Value := do
  let n ← a.asNumeral Primitive.string.name
  .ok (.string n.text)

end KinQuery.Strings
