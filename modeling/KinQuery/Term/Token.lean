import KinQuery.Text.Blank
import KinQuery.Text.Quote

/-! Tokens of terms and where they stand.

A token is a parenthesis or an atom; an atom is a string literal, from a quote to the next
quote, or a longest run of other characters. Spaces between tokens are dropped. -/
namespace KinQuery

/-- A line and a column, both counted from one; columns count characters. -/
structure Position where
  line : Nat
  column : Nat
  deriving DecidableEq

namespace Position

def start : Position :=
  ⟨1, 1⟩

def after (p : Position) (c : Char) : Position :=
  if c = '\n' then ⟨p.line + 1, 1⟩ else ⟨p.line, p.column + 1⟩

end Position

inductive Token where
  | opening
  | closing
  | atom (text : String)
  deriving DecidableEq

/-- The tokens of a text, each with its place, up to the end of the text or to a string
literal that is never closed. -/
inductive Lexemes where
  | finished (place : Position)
  | unclosed (place : Position)
  | next (token : Token) (place : Position) (rest : Lexemes)

namespace Lexemes

mutual

/-- Reads from a place between tokens. -/
def between (p : Position) : List Char → Lexemes
  | [] => .finished p
  | c :: cs =>
    if c = '(' then .next .opening p (between (p.after c) cs)
    else if c = ')' then .next .closing p (between (p.after c) cs)
    else if c = Text.quote then inLiteral p [c] (p.after c) cs
    else if Text.isSpace c then between (p.after c) cs
    else inWord p [c] (p.after c) cs

/-- Reads on inside a word that began at `first`; `seen` is what was read of it, backwards. -/
def inWord (first : Position) (seen : List Char) (p : Position) : List Char → Lexemes
  | [] => .next (.atom (.ofList seen.reverse)) first (.finished p)
  | c :: cs =>
    if c = '(' then
      .next (.atom (.ofList seen.reverse)) first (.next .opening p (between (p.after c) cs))
    else if c = ')' then
      .next (.atom (.ofList seen.reverse)) first (.next .closing p (between (p.after c) cs))
    else if c = Text.quote then
      .next (.atom (.ofList seen.reverse)) first (inLiteral p [c] (p.after c) cs)
    else if Text.isSpace c then
      .next (.atom (.ofList seen.reverse)) first (between (p.after c) cs)
    else inWord first (c :: seen) (p.after c) cs

/-- Reads on inside a string literal that began at `first`. -/
def inLiteral (first : Position) (seen : List Char) (p : Position) : List Char → Lexemes
  | [] => .unclosed first
  | c :: cs =>
    if c = Text.quote then
      .next (.atom (.ofList (c :: seen).reverse)) first (between (p.after c) cs)
    else inLiteral first (c :: seen) (p.after c) cs

end

/-- The tokens of a whole text. -/
def ofText (cs : List Char) : Lexemes :=
  between .start cs

/-- The tokens alone, if every literal is closed. -/
def tokens? : Lexemes → Option (List Token)
  | .finished _ => some []
  | .unclosed _ => none
  | .next token _ rest => (tokens? rest).map (token :: ·)

end Lexemes
end KinQuery
