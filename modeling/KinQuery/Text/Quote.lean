/-! String literals inside a text. A literal runs from a quote to the next quote and has no
escapes. Literals can be lifted out, each leaving a marker, and put back in order. -/
namespace KinQuery.Text

/-- The mark around string literals. -/
def quote : Char := '\x27'

/-- Stands where a literal was lifted out. -/
def marker : Char := '\x0f'

/-- A text with its literals replaced by markers, and the literals in order. -/
structure Lifted where
  skeleton : List Char
  literals : List (List Char)

/-- Lifts the literals out of a text. The first argument holds what was read of an open
literal, backwards; a literal that is never closed stays in the skeleton. -/
def liftInside : Option (List Char) → List Char → Lifted
  | none, [] => ⟨[], []⟩
  | some seen, [] => ⟨seen.reverse, []⟩
  | none, c :: cs =>
    if c = quote then liftInside (some [c]) cs
    else
      let lifted := liftInside none cs
      ⟨c :: lifted.skeleton, lifted.literals⟩
  | some seen, c :: cs =>
    if c = quote then
      let lifted := liftInside none cs
      ⟨marker :: lifted.skeleton, (c :: seen).reverse :: lifted.literals⟩
    else liftInside (some (c :: seen)) cs

def lift (cs : List Char) : Lifted :=
  liftInside none cs

/-- Puts literals back in the place of markers; markers beyond the last literal vanish. -/
def restore : List Char → List (List Char) → List Char
  | [], _ => []
  | c :: cs, literals =>
    if c = marker then
      match literals with
      | literal :: literals => literal ++ restore cs literals
      | [] => restore cs []
    else c :: restore cs literals

end KinQuery.Text
