/-! What stands between the items of a TOML document: blanks, comments and the ends of lines. -/
namespace KinQuery.Toml

/-- A character that may stand in a comment or between quotation marks: none that controls the
layout, except the tab. -/
def isPlain (c : Char) : Bool :=
  c = '\t' || (' ' ≤ c && c ≠ '\x7f')

/-- Spaces and tabs. -/
def skipBlanks (cs : List Char) : List Char :=
  cs.dropWhile fun c => c = ' ' || c = '\t'

/-- What follows the end of a line: a line feed, perhaps after a carriage return. -/
def takeLineEnd : List Char → Option (List Char)
  | '\n' :: rest => some rest
  | '\r' :: '\n' :: rest => some rest
  | _ => none

def skipComment : List Char → List Char
  | '#' :: rest => rest.dropWhile isPlain
  | cs => cs

/-- What is left of a line may only be a comment; returns the following lines. -/
def nextLine (cs : List Char) : Option (List Char) :=
  match skipComment (skipBlanks cs) with
  | [] => some []
  | cs => takeLineEnd cs

/-- Skips blanks, comments and ends of lines. -/
def skipLines : (bound : Nat) → List Char → List Char
  | 0, cs => cs
  | bound + 1, cs =>
    match nextLine cs with
    | some [] => []
    | some rest => skipLines bound rest
    | none => skipBlanks cs

/-- Skips as many lines as there are. -/
def skipLayout (cs : List Char) : List Char :=
  skipLines (cs.length + 1) cs

end KinQuery.Toml
