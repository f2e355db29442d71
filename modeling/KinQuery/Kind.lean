import KinQuery.Calendar
import KinQuery.Numeral
import KinQuery.Text.LowerCase
import KinQuery.Text.Quote

/-! The kinds of values and the texts that spell a literal of each. -/
namespace KinQuery

inductive Kind where
  | boolean
  | numeral
  | string
  | void
  | date
  | list
  | person
  | function
  deriving DecidableEq

namespace Kind

/-- The kinds with literals, in the order in which an atom is held against them. -/
def literals : List Kind :=
  [.boolean, .numeral, .string, .void, .date, .list, .person]

def all : List Kind :=
  literals ++ [.function]

def name : Kind → String
  | .boolean => "boolean"
  | .numeral => "numeral"
  | .string => "string"
  | .void => "void"
  | .date => "date"
  | .list => "list"
  | .person => "person"
  | .function => "function"

/-- The kind of a name in any mixture of capital and small letters. -/
def ofName? (name : String) : Option Kind :=
  let name := Text.lowerCase name
  all.find? (·.name = name)

/-- A quote, anything but quotes, and a quote. -/
def isQuoted : List Char → Bool
  | c :: cs => c = Text.quote && cs.getLast? = some Text.quote && !cs.dropLast.contains Text.quote
  | [] => false

/-- Whether a text is a literal of a kind. Functions have none; the only literal of a list is
the empty one, and the only literal of persons stands for everyone. -/
def accepts : Kind → String → Bool
  | .boolean, text => text = "true" || text = "false"
  | .numeral, text => Numeral.isSpelling text.toList
  | .string, text => isQuoted text.toList
  | .void, text => text = "void"
  | .date, text => text = "now" || Date.isSpelling text
  | .list, text => text = "vacant"
  | .person, text => text = "people"
  | .function, _ => false

/-- The first kind with such a literal. -/
def recognize (text : String) : Option Kind :=
  literals.find? (·.accepts text)

theorem accepts_of_recognize {text : String} {kind : Kind} (h : recognize text = some kind) :
    kind.accepts text = true := by
  simpa using List.find?_some h

end Kind
end KinQuery
