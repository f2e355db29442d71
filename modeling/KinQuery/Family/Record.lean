import KinQuery.Family.Genealogy
import KinQuery.Json.Reader

/-! Records of persons and bonds in JSON documents. What a person's record has beyond its
fields is skipped, whatever it is; a bond's record is kept whole until its kind is known, so
all of it has to be sound. -/
namespace KinQuery

/-- A field that has to be there. -/
def required {α : Type} (read : Json → Option α) (field : Option Json) : Option α :=
  field.bind read

/-- A field that may be missing, but not be of another form. -/
def optional {α : Type} (read : Json → Option α) (default : α) : Option Json → Option α
  | some json => read json
  | none => some default

/-- A list of records. -/
def listOf {α : Type} (read : Json → Option α) : Json → Option (List α)
  | .array items => items.mapM read
  | _ => none

/-- A date in the spelling of records. -/
def dateOfJson? (json : Json) : Option Date :=
  json.text?.bind Date.ofRecord?

/-- A sex by its name, which may also stand as the only key of an object, with null. -/
def Sex.ofJson? : Json → Option Sex
  | .text name => Sex.ofName? name
  | .object [(name, .null)] => Sex.ofName? name
  | _ => none

namespace Profile

def fieldNames : List String :=
  ["id", "first_name", "last_name", "sex", "birth", "occupation", "phone", "email"]

def ofJson? (json : Json) : Option Profile := do
  match ← json.fields? fieldNames with
  | [id, firstName, lastName, sex, birth, occupation, phone, email] =>
    some {
      id := ← required Json.word64? id
      firstName := ← required Json.text? firstName
      lastName := ← required Json.text? lastName
      sex := ← required Sex.ofJson? sex
      birth := ← required dateOfJson? birth
      occupation := ← optional Json.text? "" occupation
      phone := ← optional Json.text? "" phone
      email := ← optional Json.text? "" email }
  | _ => none

end Profile

namespace Bond

/-- Splits the kind off a record of a bond. -/
def cutKind : Json → Option (Json × Json)
  | .object members =>
    match Json.valuesOf "kind" members with
    | [kind] => some (kind, .object (members.filter (·.1 ≠ "kind")))
    | _ => none
  | .array (kind :: items) => some (kind, .array items)
  | _ => none

/-- How deep a bond's record may go: it stands in a list in a document. -/
def depthLimit : Nat := Json.depthLimit - 2

def ofJson? (json : Json) : Option Bond := do
  guard (json.isSound depthLimit)
  let (kind, rest) ← cutKind json
  match kind with
  | .text "marital" =>
    match ← rest.fields? ["first", "second", "wedding"] with
    | [first, second, wedding] =>
      some (.marital (← required Json.word64? first) (← required Json.word64? second)
        (← required dateOfJson? wedding))
    | _ => none
  | .text "parental" =>
    match ← rest.fields? ["parent", "child"] with
    | [parent, child] =>
      some (.parental (← required Json.word64? parent) (← required Json.word64? child))
    | _ => none
  | _ => none

end Bond

namespace Snapshot

def ofJson? (json : Json) : Option Snapshot := do
  match ← json.fields? ["people", "bonds"] with
  | [people, bonds] =>
    some ⟨← optional (listOf Profile.ofJson?) [] people, ← optional (listOf Bond.ofJson?) [] bonds⟩
  | _ => none

end Snapshot

namespace Genealogy

/-- The genealogy that a document records. -/
def ofJson (json : Json) : Except Failure Genealogy :=
  match Snapshot.ofJson? json with
  | some snapshot => ofSnapshot snapshot
  | none => .error (.storage .unreadable)

/-- The genealogy that the text of a document records. -/
def read (text : String) : Except Failure Genealogy :=
  match Json.parse? text with
  | some json => ofJson json
  | none => .error (.storage .unreadable)

end Genealogy
end KinQuery
