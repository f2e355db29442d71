import KinQuery.Arity

/-! The functions that every session has, with their names and arities. -/
namespace KinQuery

inductive Primitive where
  -- of every kind
  | equal | ofType
  -- booleans
  | and | or | not
  -- numerals
  | add | multiply | subtract | divide | remainder | less | atMost | greater | atLeast
  -- strings
  | concat | chars | substring | string
  -- dates
  | before | after | during | day | month | year | date
  -- lists
  | list | count | at | join | append | head | tail | filter | map
  -- persons
  | person | father | mother | spouse | children | attr | kinship | generationDistance
  | shorten | putKinshipTerm | relatives
  deriving DecidableEq

namespace Primitive

def all : List Primitive :=
  [.equal, .ofType, .and, .or, .not, .add, .multiply, .subtract, .divide, .remainder, .less,
    .atMost, .greater, .atLeast, .concat, .chars, .substring, .string, .before, .after, .during,
    .day, .month, .year, .date, .list, .count, .at, .join, .append, .head, .tail, .filter, .map,
    .person, .father, .mother, .spouse, .children, .attr, .kinship, .generationDistance,
    .shorten, .putKinshipTerm, .relatives]

theorem mem_all (p : Primitive) : p ∈ all := by
  cases p <;> decide

def name : Primitive → String
  | .equal => "="
  | .ofType => "of-type?"
  | .and => "and"
  | .or => "or"
  | .not => "not"
  | .add => "+"
  | .multiply => "*"
  | .subtract => "-"
  | .divide => "div"
  | .remainder => "mod"
  | .less => "<"
  | .atMost => "<="
  | .greater => ">"
  | .atLeast => ">="
  | .concat => "concat"
  | .chars => "chars"
  | .substring => "substr"
  | .string => "string"
  | .before => "before"
  | .after => "after"
  | .during => "during"
  | .day => "day"
  | .month => "month"
  | .year => "year"
  | .date => "date"
  | .list => "list"
  | .count => "count"
  | .at => "at"
  | .join => "join"
  | .append => "append"
  | .head => "head"
  | .tail => "tail"
  | .filter => "filter"
  | .map => "map"
  | .person => "person"
  | .father => "father"
  | .mother => "mother"
  | .spouse => "spouse"
  | .children => "children"
  | .attr => "attr"
  | .kinship => "kinship"
  | .generationDistance => "gen-dist"
  | .shorten => "shorten"
  | .putKinshipTerm => "put-kinship-term"
  | .relatives => "relatives"

def arity : Primitive → Arity
  | .and | .or | .add | .multiply | .concat | .list | .join => .atLeast 1
  | .append => .atLeast 2
  | .substring | .map => .between 2 3
  | .person => .between 1 2
  | .during => .exactly 3
  | .not | .chars | .string | .day | .month | .year | .date | .count | .head | .tail
  | .father | .mother | .spouse | .children | .shorten => .exactly 1
  | .equal | .ofType | .subtract | .divide | .remainder | .less | .atMost | .greater | .atLeast
  | .before | .after | .at | .filter | .attr | .kinship | .generationDistance
  | .putKinshipTerm | .relatives => .exactly 2

def ofName? (name : String) : Option Primitive :=
  all.find? (·.name = name)

end Primitive
end KinQuery
