import KinQuery.Number

/-! JSON documents. Objects keep their members in order and with repetitions, so that a reader
can refuse them. -/
namespace KinQuery

inductive Json where
  | null
  | boolean (b : Bool)
  | number (n : Number)
  | text (s : String)
  | array (items : List Json)
  | object (members : List (String × Json))
  /-- A well-formed part that stands for no value: a text with half of a surrogate pair, an
  object with such a key, or a number that is too large. It can be skipped, but not read. -/
  | flawed

namespace Json

mutual

/-- Whether a value has no flawed part and goes at most `depth` arrays and objects deep. -/
def isSound (depth : Nat) : Json → Bool
  | .flawed => false
  | .array items => 0 < depth && areSound (depth - 1) items
  | .object members => 0 < depth && areSoundMembers (depth - 1) members
  | _ => true

def areSound (depth : Nat) : List Json → Bool
  | [] => true
  | item :: items => isSound depth item && areSound depth items

def areSoundMembers (depth : Nat) : List (String × Json) → Bool
  | [] => true
  | (_, value) :: members => isSound depth value && areSoundMembers depth members

end

/-- How deep a document may go where all of it is kept. -/
def depthLimit : Nat := 127

/-- Every value that an object has for a key. -/
def valuesOf (key : String) (members : List (String × Json)) : List Json :=
  (members.filter (·.1 = key)).map (·.2)

/-- The values of a record's fields, in the order of their names; absent ones are `none`.

A record is an object, in which no field may be repeated and others are ignored, or an array
of its fields in order, which may stop early. -/
def fields? (names : List String) : Json → Option (List (Option Json))
  | .object members => names.mapM fun name =>
    match valuesOf name members with
    | [] => some none
    | [value] => some (some value)
    | _ => none
  | .array items =>
    if items.length ≤ names.length then
      some (items.map some ++ List.replicate (names.length - items.length) none)
    else none
  | _ => none

def text? : Json → Option String
  | .text s => some s
  | _ => none

/-- A natural number of 64 bits. -/
def word64? : Json → Option Nat
  | .number (.integer n) => if 0 ≤ n && n < 18446744073709551616 then some n.toNat else none
  | _ => none

end Json
end KinQuery
