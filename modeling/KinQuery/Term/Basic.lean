/-! Terms: atoms, parenthesised sequences, and values put in place of atoms.

The type of values is a parameter, so that reading and substituting terms say nothing about
values, and a term just read can hold none. -/
namespace KinQuery

inductive Term (V : Type) where
  | atom (text : String)
  | compound (parts : List (Term V))
  | value (v : V)

/-- The leading words that are not function names. -/
inductive SpecialForm where
  | define
  | lambda
  | conditional
  deriving DecidableEq

namespace SpecialForm

def all : List SpecialForm :=
  [.define, .lambda, .conditional]

def word : SpecialForm → String
  | .define => "define"
  | .lambda => "lambda"
  | .conditional => "if"

def ofWord? (text : String) : Option SpecialForm :=
  all.find? (·.word = text)

theorem ofWord?_word (form : SpecialForm) : ofWord? form.word = some form := by
  cases form <;> decide

end SpecialForm

namespace Term
variable {V : Type}

def atom? : Term V → Option String
  | .atom text => some text
  | _ => none

/-- The leading atom of a compound. -/
def leader : Term V → Option String
  | .compound (part :: _) => part.atom?
  | _ => none

def specialForm? (t : Term V) : Option SpecialForm :=
  t.leader.bind SpecialForm.ofWord?

end Term
end KinQuery
