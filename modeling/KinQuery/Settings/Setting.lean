import KinQuery.Json.Reader
import KinQuery.Text.LowerCase

/-! What the sources of settings hold: trees of tables and lists. Values are converted to what
a setting needs as far as that makes sense: words such as `yes` and numbers to booleans,
booleans and numbers to texts. -/
namespace KinQuery

inductive Setting where
  | nothing
  | boolean (b : Bool)
  | number (n : Number)
  | text (s : String)
  | list (items : List Setting)
  | table (entries : List (String × Setting))

namespace Setting

/-- The entries of a table; anything else has none. -/
def entries : Setting → List (String × Setting)
  | table entries => entries
  | _ => []

/-- The items of a list; anything else has none. -/
def items : Setting → List Setting
  | list items => items
  | _ => []

/-- Changes the value of a key, which is nothing if the key is not there. -/
def alter (key : String) (change : Setting → Setting) (entries : List (String × Setting)) :
    List (String × Setting) :=
  if (entries.lookup key).isSome then
    entries.map fun entry => if entry.1 = key then (key, change entry.2) else entry
  else entries ++ [(key, change .nothing)]

/-! ### Documents -/

mutual

/-- The tree of a document. Of two members with one key the later counts. -/
def ofJson : Json → Setting
  | .null => nothing
  | .boolean b => boolean b
  | .number n => number n
  | .text s => text s
  | .array items => list (ofItems items)
  | .object members => table (ofMembers [] members)
  | .flawed => nothing

def ofItems : List Json → List Setting
  | [] => []
  | item :: items => ofJson item :: ofItems items

/-- Adds the members of an object to the entries before them. -/
def ofMembers (entries : List (String × Setting)) :
    List (String × Json) → List (String × Setting)
  | [] => entries
  | (key, value) :: members => ofMembers (alter key (fun _ => ofJson value) entries) members

end

/-- The tree that the text of a JSON document spells. -/
def parseJson? (text : String) : Option Setting :=
  ((Json.parse? text).filter (·.isSound Json.depthLimit)).map ofJson

/-! ### Conversion -/

def toBoolean? : Setting → Option Bool
  | boolean b => some b
  | number n => some !n.isZero
  | text s =>
    match Text.lowerCase s with
    | "1" | "true" | "on" | "yes" => some true
    | "0" | "false" | "off" | "no" => some false
    | _ => none
  | _ => none

def toText? : Setting → Option String
  | text s => some s
  | boolean b => some (if b then "true" else "false")
  | number n => some n.text
  | _ => none

/-- The text of a setting that may be left empty. -/
def toOptional? : Setting → Option (Option String)
  | nothing => some none
  | setting => (toText? setting).map some

end Setting
end KinQuery
