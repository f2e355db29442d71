import KinQuery.Value

/-! Taking the arguments of primitive functions apart. The number of arguments was checked
against the arity before; it is refused here once more if it does not fit. -/
namespace KinQuery.Primitive

def refuse {α : Type} (p : Primitive) (arguments : List Value) : Except Failure α :=
  .error (.wrongArgumentCount p.name p.arity arguments.length)

def unary {α : Type} (p : Primitive) (arguments : List Value)
    (f : Value → Except Failure α) : Except Failure α :=
  match arguments with
  | [a] => f a
  | _ => p.refuse arguments

def binary {α : Type} (p : Primitive) (arguments : List Value)
    (f : Value → Value → Except Failure α) : Except Failure α :=
  match arguments with
  | [a, b] => f a b
  | _ => p.refuse arguments

def ternary {α : Type} (p : Primitive) (arguments : List Value)
    (f : Value → Value → Value → Except Failure α) : Except Failure α :=
  match arguments with
  | [a, b, c] => f a b c
  | _ => p.refuse arguments

end KinQuery.Primitive
