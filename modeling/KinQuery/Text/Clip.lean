import KinQuery.Text.Blank
import KinQuery.Text.Quote

/-! The balance of a text and its canonical spelling: one space between parts, none just
inside parentheses, and string literals as they were written. -/
namespace KinQuery.Text

/-- Whether parentheses pair up outside string literals, every literal is closed, and no
marker occurs; `depth` parentheses are open. -/
def balancedFrom (depth : Nat) (inLiteral : Bool) : List Char → Bool
  | [] => depth = 0 && !inLiteral
  | c :: cs =>
    if c = marker then false
    else if c = quote then balancedFrom depth (!inLiteral) cs
    else if inLiteral then balancedFrom depth true cs
    else if c = '(' then balancedFrom (depth + 1) false cs
    else if c = ')' then
      match depth with
      | 0 => false
      | depth + 1 => balancedFrom depth false cs
    else balancedFrom depth false cs

def isBalanced (cs : List Char) : Bool :=
  balancedFrom 0 false cs

/-- Every run of blanks becomes one space. -/
def collapse : List Char → List Char
  | [] => []
  | c :: cs => if isBlank c then ' ' :: (collapse cs).dropWhile (· = ' ') else c :: collapse cs

/-- Drops one blank after each opening parenthesis. -/
def closeUpOpenings : List Char → List Char
  | c :: d :: cs =>
    if c = '(' && isBlank d then c :: closeUpOpenings cs else c :: closeUpOpenings (d :: cs)
  | cs => cs

/-- Drops one blank before each closing parenthesis. -/
def closeUpClosings : List Char → List Char
  | c :: d :: cs =>
    if isBlank c && d = ')' then d :: closeUpClosings cs else c :: closeUpClosings (d :: cs)
  | cs => cs

/-- The spelling of a text without literals. -/
def squeeze (cs : List Char) : List Char :=
  closeUpClosings (closeUpOpenings (collapse (trim cs)))

def clip (cs : List Char) : List Char :=
  let lifted := lift cs
  restore (squeeze lifted.skeleton) lifted.literals

end KinQuery.Text
