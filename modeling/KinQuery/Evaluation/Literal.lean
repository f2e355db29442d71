import KinQuery.Function.People
import KinQuery.Session.Run

/-! The values of literals. The words `now` and `people` stand for values of the session. -/
namespace KinQuery

/-- The text between the quotes of a string literal. -/
def unquoted (text : String) : String :=
  .ofList (text.toList.drop 1).dropLast

/-- The value of a literal of a given kind. -/
def readLiteral (kind : Kind) (text : String) : Run Value :=
  if !kind.accepts text then Run.fail (.notLiteral kind text)
  else match kind with
  | .boolean => pure (.boolean (text = "true"))
  | .numeral =>
    match Numeral.read text with
    | .ok n => pure (.numeral n)
    | .error fault => Run.fail (.numeralOutOfRange text fault)
  | .string => pure (.string (unquoted text))
  | .void => pure .void
  | .date =>
    if text = "now" then do
      let s ← get
      return .date s.today
    else match Date.read? text with
      | some d => pure (.date d)
      | none => Run.fail (.notDate text)
  | .list => pure .vacant
  | .person => do
    let tree ← Run.tree
    return People.everyone tree
  | .function => Run.fail (.notLiteral kind text)

end KinQuery
