import KinQuery.Term.Basic
import KinQuery.Text.Blank

/-! Names: references, which definitions and parameters may bear, and the keywords, which
nothing may redefine. -/
namespace KinQuery

def isLetter (c : Char) : Bool :=
  'a' ≤ c && c ≤ 'z'

/-- The text without one trailing question mark. -/
def dropQuestion (cs : List Char) : List Char :=
  match cs.reverse with
  | '?' :: rest => rest.reverse
  | _ => cs

/-- Small words joined by hyphens, with an optional question mark at the end. -/
def isReference (name : String) : Bool :=
  (Text.splitOn '-' (dropQuestion name.toList)).all fun word => !word.isEmpty && word.all isLetter

def keywords : List String :=
  SpecialForm.all.map SpecialForm.word ++ ["true", "false", "void", "now", "vacant", "people"]

def isKeyword (name : String) : Bool :=
  keywords.contains name

end KinQuery
