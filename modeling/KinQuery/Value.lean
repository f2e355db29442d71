import KinQuery.Failure
import KinQuery.Family.Profile
import KinQuery.Function.Basic

/-! Values, their equality and their spellings.

A value is spelled as a term that evaluates to it, as a key of the cache, in which persons go
by id so that namesakes never share a key, and as plain text for people to read. -/
namespace KinQuery

inductive Value where
  | boolean (b : Bool)
  | numeral (n : Numeral)
  | string (s : String)
  | date (d : Date)
  | list (items : List Value)
  | person (p : Profile)
  | function (f : Function Value)
  | void

namespace Value

/-- The empty list. -/
def vacant : Value := .list []

def kind : Value → Kind
  | .boolean _ => .boolean
  | .numeral _ => .numeral
  | .string _ => .string
  | .date _ => .date
  | .list _ => .list
  | .person _ => .person
  | .function _ => .function
  | .void => .void

/-- A sequence of spellings in parentheses. -/
def enclosed (parts : List String) : String :=
  "(" ++ " ".intercalate parts ++ ")"

/-- The spelling of the literal of a string. -/
def stringLiteral (s : String) : String :=
  "'" ++ s ++ "'"

mutual

/-- Spells a value as a term, with persons as `person` spells them. -/
def spell (person : Profile → String) : Value → String
  | .boolean b => if b then "true" else "false"
  | .numeral n => n.text
  | .string s => stringLiteral s
  | .date d => d.text
  | .list [] => "vacant"
  | .list (item :: items) => enclosed ("list" :: spell person item :: spellItems person items)
  | .person p => person p
  | .function (.primitive p) => p.name
  | .function (.host h) => h.name
  | .function (.lambda _ parameters body) =>
    enclosed ["lambda", enclosed parameters, spellTerm person body]
  | .void => "void"

def spellItems (person : Profile → String) : List Value → List String
  | [] => []
  | item :: items => spell person item :: spellItems person items

/-- Spells a term, with the values in it as terms. -/
def spellTerm (person : Profile → String) : Term Value → String
  | .atom text => text
  | .value v => spell person v
  | .compound parts => enclosed (spellParts person parts)

def spellParts (person : Profile → String) : List (Term Value) → List String
  | [] => []
  | part :: parts => spellTerm person part :: spellParts person parts

end

/-- The term that finds a person by first and last name. -/
def personTerm (p : Profile) : String :=
  enclosed ["person", stringLiteral p.firstName, stringLiteral p.lastName]

/-- The mark of a person in keys. -/
def personKey (p : Profile) : String :=
  enclosed ["person", "#" ++ toString p.id]

/-- A term that evaluates to the value. -/
def term (v : Value) : String :=
  v.spell personTerm

/-- What the value contributes to keys of the cache. -/
def key (v : Value) : String :=
  v.spell personKey

mutual

/-- The value for people to read: strings without quotes, lists in brackets, full names. -/
def text : Value → String
  | .string s => s
  | .list items => "[" ++ ", ".intercalate (textItems items) ++ "]"
  | .person p => p.fullName
  | v => v.term

def textItems : List Value → List String
  | [] => []
  | item :: items => text item :: textItems items

end

mutual

/-- Equality of values: persons are the same by id, functions by name. -/
def same : Value → Value → Bool
  | .boolean a, .boolean b => a = b
  | .numeral a, .numeral b => a = b
  | .string a, .string b => a = b
  | .date a, .date b => a = b
  | .list as, .list bs => sameItems as bs
  | .person a, .person b => a.id = b.id
  | .function f, .function g => f.name = g.name
  | .void, .void => true
  | _, _ => false

def sameItems : List Value → List Value → Bool
  | [], [] => true
  | a :: as, b :: bs => same a b && sameItems as bs
  | _, _ => false

end

/-! ### Expecting a kind

Every operation names itself when it is given a value of another kind. -/

def mismatch (v : Value) (operation : String) (expected : Kind) : Failure :=
  .wrongKind operation expected v.kind v.term

def asBoolean (operation : String) : Value → Except Failure Bool
  | .boolean b => .ok b
  | v => .error (v.mismatch operation .boolean)

def asNumeral (operation : String) : Value → Except Failure Numeral
  | .numeral n => .ok n
  | v => .error (v.mismatch operation .numeral)

def asString (operation : String) : Value → Except Failure String
  | .string s => .ok s
  | v => .error (v.mismatch operation .string)

def asDate (operation : String) : Value → Except Failure Date
  | .date d => .ok d
  | v => .error (v.mismatch operation .date)

def asList (operation : String) : Value → Except Failure (List Value)
  | .list items => .ok items
  | v => .error (v.mismatch operation .list)

def asPerson (operation : String) : Value → Except Failure Profile
  | .person p => .ok p
  | v => .error (v.mismatch operation .person)

def asFunction (operation : String) : Value → Except Failure (Function Value)
  | .function f => .ok f
  | v => .error (v.mismatch operation .function)

end Value

namespace Term

/-- A term as it is written. -/
def display (t : Term Value) : String :=
  Value.spellTerm Value.personTerm t

/-- The key under which results of a term are kept. -/
def key (t : Term Value) : String :=
  Value.spellTerm Value.personKey t

end Term

namespace Function

/-- Refuses a number of arguments that the function does not take. -/
def checkArity (f : Function Value) (count : Nat) : Except Failure Unit :=
  if f.arity.accepts count then .ok () else .error (.wrongArgumentCount f.name f.arity count)

end Function
end KinQuery
