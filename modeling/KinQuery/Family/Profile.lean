import KinQuery.Calendar

/-! Persons and the bonds between them. -/
namespace KinQuery

/-- What persons are told apart by; two persons may share a name. -/
abbrev PersonId := Nat

inductive Sex where
  | male
  | female
  deriving DecidableEq

namespace Sex

def name : Sex → String
  | .male => "male"
  | .female => "female"

def ofName? : String → Option Sex
  | "male" => some .male
  | "female" => some .female
  | _ => none

/-- What a parent of this sex is called. -/
def parent : Sex → String
  | .male => "father"
  | .female => "mother"

end Sex

structure Profile where
  id : PersonId
  firstName : String
  lastName : String
  sex : Sex
  birth : Date
  occupation : String := ""
  phone : String := ""
  email : String := ""
  deriving DecidableEq

namespace Profile

def fullName (p : Profile) : String :=
  p.firstName ++ " " ++ p.lastName

/-- Every text of a profile with the name of its field. -/
def texts (p : Profile) : List (String × String) :=
  [("first name", p.firstName), ("last name", p.lastName), ("occupation", p.occupation),
    ("phone", p.phone), ("email", p.email)]

end Profile

inductive Bond where
  | marital (first second : PersonId) (wedding : Date)
  | parental (parent child : PersonId)
  deriving DecidableEq

namespace Bond

def links (id : PersonId) : Bond → Bool
  | .marital first second _ => first = id || second = id
  | .parental parent child => parent = id || child = id

def isMarital : Bond → Bool
  | .marital .. => true
  | .parental .. => false

/-- A marriage of two persons, whichever is named first. -/
def marries (a b : PersonId) : Bond → Bool
  | .marital first second _ => (first = a && second = b) || (first = b && second = a)
  | .parental .. => false

end Bond
end KinQuery
