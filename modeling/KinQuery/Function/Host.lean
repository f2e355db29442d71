import KinQuery.Value

/-! What registered functions see of their arguments, and the values that they return. -/
namespace KinQuery

namespace Value

mutual

def datum : Value → Datum
  | .boolean b => .boolean b
  | .numeral n => .numeral n
  | .string s => .string s
  | .date d => .date d
  | .list items => .list (data items)
  | .person p => .person p
  | .function f => .function f.name f.arity
  | .void => .void

def data : List Value → List Datum
  | [] => []
  | item :: items => datum item :: data items

end

mutual

/-- The functions in a value, at any depth of lists. -/
def functions : Value → List (Function Value)
  | .list items => functionsOf items
  | .function f => [f]
  | _ => []

def functionsOf : List Value → List (Function Value)
  | [] => []
  | item :: items => functions item ++ functionsOf items

end

end Value

namespace Datum

mutual

/-- The value of a datum, whose functions are among the given ones. -/
def value (functions : List (Function Value)) : Datum → Value
  | .boolean b => .boolean b
  | .numeral n => .numeral n
  | .string s => .string s
  | .date d => .date d
  | .list items => .list (values functions items)
  | .person p => .person p
  | .function name _ =>
    match functions.find? (·.name = name) with
    | some f => .function f
    | none => .void
  | .void => .void

def values (functions : List (Function Value)) : List Datum → List Value
  | [] => []
  | item :: items => value functions item :: values functions items

end

end Datum

namespace HostAction

/-- The result that an action computes from the arguments. -/
def computed (f : List Datum → Except Failure Datum) (arguments : List Value) :
    Except Failure Value :=
  (f (Value.data arguments)).map (Datum.value (Value.functionsOf arguments))

end HostAction
end KinQuery
