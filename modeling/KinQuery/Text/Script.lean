import KinQuery.Text.Clip

/-! Scripts: terms one after the other, with comments from a semicolon to the end of a line. -/
namespace KinQuery.Text

/-- Why a script cannot be cut into terms, with the text at fault. -/
inductive ScriptFault where
  | unbalanced (before : List Char)
  | unterminated (rest : List Char)
  deriving DecidableEq

/-- What a script stands in the middle of. -/
inductive Within where
  | text
  | literal
  | comment
  deriving DecidableEq

/-- Cuts the rest of a script into clipped terms. `seen` holds the current term so far,
backwards, and `depth` counts its open parentheses. -/
def splitInside (depth : Nat) (seen : List Char) :
    Within → List Char → Except ScriptFault (List (List Char))
  | .literal, [] => .error (.unterminated (trim seen.reverse))
  | _, [] =>
    if depth = 0 then .ok (if (trim seen.reverse).isEmpty then [] else [clip seen.reverse])
    else .error (.unterminated (trim seen.reverse))
  | .comment, c :: cs => splitInside depth seen (if c = '\n' then .text else .comment) cs
  | .literal, c :: cs => splitInside depth (c :: seen) (if c = quote then .text else .literal) cs
  | .text, c :: cs =>
    if c = ';' then splitInside depth seen .comment cs
    else if c = quote then splitInside depth (c :: seen) .literal cs
    else if isBlank c && depth = 0 then
      if seen.isEmpty then splitInside 0 [] .text cs
      else (splitInside 0 [] .text cs).map (clip seen.reverse :: ·)
    else if c = '(' then splitInside (depth + 1) (c :: seen) .text cs
    else if c = ')' then
      match depth with
      | 0 => .error (.unbalanced seen.reverse)
      | 1 => (splitInside 0 [] .text cs).map (clip (c :: seen).reverse :: ·)
      | depth + 2 => splitInside (depth + 1) (c :: seen) .text cs
    else splitInside depth (c :: seen) .text cs

/-- The top-level terms of a script, clipped. -/
def splitTerms (script : String) : Except ScriptFault (List String) :=
  (splitInside 0 [] .text script.toList).map (·.map .ofList)

end KinQuery.Text
