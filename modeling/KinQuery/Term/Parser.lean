import KinQuery.Term.Basic
import KinQuery.Term.Token

/-! Reading one term from a text.

A text is refused at the first token that cannot continue a term, or at its end if a
parenthesis is still open: that is the furthest place at which something was expected. -/
namespace KinQuery.Term
variable {V : Type}

/-- Nothing may follow a complete term. -/
def finish (t : Term V) : Lexemes → Except Position (Term V)
  | .finished _ => .ok t
  | .unclosed place => .error place
  | .next _ place _ => .error place

/-- Reads on inside the compounds of `stack`, innermost first, each with its parts backwards. -/
def readInside (stack : List (List (Term V))) : Lexemes → Except Position (Term V)
  | .finished place => .error place
  | .unclosed place => .error place
  | .next .opening _ rest => readInside ([] :: stack) rest
  | .next .closing place rest =>
    match stack with
    | [] => .error place
    | [parts] => finish (.compound parts.reverse) rest
    | parts :: outer :: stack => readInside ((.compound parts.reverse :: outer) :: stack) rest
  | .next (.atom text) _ rest =>
    match stack with
    | [] => finish (.atom text) rest
    | parts :: stack => readInside ((.atom text :: parts) :: stack) rest

/-- The term that a text spells, or the place where it fails to. -/
def parse (text : String) : Except Position (Term V) :=
  readInside [] (.ofText text.toList)

mutual

/-- The tokens of a term without values, in order. -/
def tokens : Term V → List Token
  | .atom text => [.atom text]
  | .compound parts => .opening :: (tokensOfParts parts ++ [.closing])
  | .value _ => []

def tokensOfParts : List (Term V) → List Token
  | [] => []
  | part :: parts => tokens part ++ tokensOfParts parts

end

end KinQuery.Term
