import KinQuery.Value

/-! Booleans. Every argument is checked, even after the outcome is known. -/
namespace KinQuery.Booleans

/-- All arguments, each of which has to be a boolean. -/
def all (operation : String) (arguments : List Value) : Except Failure (List Bool) :=
  arguments.mapM (·.asBoolean operation)

def conjunction (arguments : List Value) : Except Failure Value := do
  let bs ← all Primitive.and.name arguments
  .ok (.boolean (bs.all id))

def disjunction (arguments : List Value) : Except Failure Value := do
  let bs ← all Primitive.or.name arguments
  .ok (.boolean (bs.any id))

def negation (a : Value) : Except Failure Value := do
  let b ← a.asBoolean Primitive.not.name
  .ok (.boolean !b)

end KinQuery.Booleans
