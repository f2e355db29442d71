import KinQuery.Failure
import KinQuery.Function.Primitive
import KinQuery.Numeral
import KinQuery.Term.Basic

/-! Functions: primitive ones, ones that the embedding program registers, and lambdas. -/
namespace KinQuery

/-- What a registered function sees of a value, and what it returns. Functions go by name. -/
inductive Datum where
  | boolean (b : Bool)
  | numeral (n : Numeral)
  | string (s : String)
  | date (d : Date)
  | list (items : List Datum)
  | person (p : Profile)
  | function (name : String) (arity : Arity)
  | void

/-- The actions of the functions registered in sessions. All but those that fail end with a value
made of the arguments alone. What registered functions may do besides is the subject of
`Hosting`. -/
inductive HostAction where
  /-- Returns the first argument, or void. -/
  | first
  /-- Returns the list of the arguments. -/
  | collect
  /-- Empties the cache, then returns the first argument. -/
  | expunge
  /-- Turns caching off or on, then returns the first argument. -/
  | toggle
  | fail
  /-- Computes a result. A function in it is the argument of that name. -/
  | compute (f : List Datum → Except Failure Datum)

/-- A function that the embedding program registers next to the primitive ones. -/
structure HostFunction where
  name : String
  arity : Arity
  action : HostAction

/-- A function over values of type `V`. Every lambda bears the number of its evaluation. -/
inductive Function (V : Type) where
  | primitive (p : Primitive)
  | host (h : HostFunction)
  | lambda (serial : Nat) (parameters : List String) (body : Term V)

namespace Function
variable {V : Type}

/-- The name of a function. No reference can spell that of a lambda. -/
def name : Function V → String
  | .primitive p => p.name
  | .host h => h.name
  | .lambda serial _ _ => "$lambda-" ++ toString serial

def arity : Function V → Arity
  | .primitive p => p.arity
  | .host h => h.arity
  | .lambda _ parameters _ => .exactly parameters.length

def isLambda : Function V → Bool
  | .lambda .. => true
  | _ => false

end Function
end KinQuery
