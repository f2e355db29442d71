import KinQuery.Term.Basic

/-! Substitution of bound names by their values.

A lambda term of three parts hides its parameters from the bindings, and keeps its leading
word and its parameter list as they are; a define term keeps its leading word and the name
that it defines. Literals are atoms that no binding names, and values are closed. -/
namespace KinQuery

/-- What each name stands for. -/
abbrev Bindings (V : Type) := String → Option V

namespace Bindings
variable {V : Type}

def none : Bindings V := fun _ => .none

/-- Later pairs never replace earlier ones. -/
def ofList (pairs : List (String × V)) : Bindings V := fun name => pairs.lookup name

/-- The bindings without some names. -/
def hide (bindings : Bindings V) (names : List String) : Bindings V :=
  fun name => if names.contains name then .none else bindings name

end Bindings

namespace Term
variable {V : Type}

/-- The names that a parameter list declares. Anything but a compound declares none. -/
def declared : Term V → List String
  | .compound parts => parts.filterMap atom?
  | _ => []

mutual

def substitute (bindings : Bindings V) : Term V → Term V
  | .atom text =>
    match bindings text with
    | some v => .value v
    | none => .atom text
  | .value v => .value v
  | .compound [.atom "lambda", parameters, body] =>
    .compound [.atom "lambda", parameters, substitute (bindings.hide parameters.declared) body]
  | .compound [.atom "define"] => .compound [.atom "define"]
  | .compound (.atom "define" :: name :: parts) =>
    .compound (.atom "define" :: name :: substituteParts bindings parts)
  | .compound parts => .compound (substituteParts bindings parts)

def substituteParts (bindings : Bindings V) : List (Term V) → List (Term V)
  | [] => []
  | part :: parts => substitute bindings part :: substituteParts bindings parts

end

end Term
end KinQuery
