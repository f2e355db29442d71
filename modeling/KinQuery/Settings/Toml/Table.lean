import KinQuery.Settings.Setting

/-! The tables of a TOML document while it is read. How a table came about decides what may
still be added to it, so that no table is defined twice. -/
namespace KinQuery.Toml

inductive Origin where
  /-- Named by a header of its own. -/
  | header
  /-- On the way to a table that a header names. -/
  | implied
  /-- On the way to a key with dots. -/
  | dotted
  deriving DecidableEq

inductive Node where
  /-- A finished value: also an array or a table that is written as a value. -/
  | value (setting : Setting)
  | table (origin : Origin) (entries : List (String × Node))
  /-- The tables that headers with two brackets add. -/
  | tables (elements : List Node)

namespace Node

mutual

def toSetting : Node → Setting
  | .value setting => setting
  | .table _ entries => .table (toEntries entries)
  | .tables elements => .list (toItems elements)

def toEntries : List (String × Node) → List (String × Setting)
  | [] => []
  | (key, node) :: entries => (key, toSetting node) :: toEntries entries

def toItems : List Node → List Setting
  | [] => []
  | node :: nodes => toSetting node :: toItems nodes

end

/-- Puts a node in the place of a key's node, or adds the key. -/
def assign (key : String) (node : Node) (entries : List (String × Node)) :
    List (String × Node) :=
  if (entries.lookup key).isSome then
    entries.map fun entry => if entry.1 = key then (key, node) else entry
  else entries ++ [(key, node)]

/-- Changes the table that a step leads to. A missing table is made; of tables with headers in
two brackets the last one is meant. A key with dots does not lead into a table that has a
header, and nothing leads into a finished value. -/
def enter (dotted : Bool) (change : Node → Option Node) : Option Node → Option Node
  | none => change (.table (if dotted then .dotted else .implied) [])
  | some (.value _) => none
  | some (.table origin entries) =>
    if dotted && origin = .header then none else change (.table origin entries)
  | some (.tables elements) => do
    let last ← elements.getLast?
    let last ← change last
    some (.tables (elements.dropLast ++ [last]))

/-- Changes the table at the end of a path. -/
def alterAt (dotted : Bool) (change : Node → Option Node) : List String → Node → Option Node
  | [], node => change node
  | step :: steps, .table origin entries => do
    let inner ← enter dotted (alterAt dotted change steps) (entries.lookup step)
    some (.table origin (assign step inner entries))
  | _ :: _, _ => none

/-- Adds a key that is not there yet. Only keys with dots may add to a table that such keys
have made, and to no other. -/
def addKey (isDotted : Bool) (key : String) (setting : Setting) : Node → Option Node
  | .table origin entries =>
    if (entries.lookup key).isNone && decide (origin = .dotted) == isDotted then
      some (.table origin (entries ++ [(key, .value setting)]))
    else none
  | _ => none

/-- Adds a value at a key with steps. -/
def add (steps : List String) (setting : Setting) (node : Node) : Option Node := do
  let key ← steps.getLast?
  alterAt true (addKey (1 < steps.length) key setting) steps.dropLast node

/-- Opens the table that a header names; an implied one gets its header now. -/
def openTable (key : String) : Node → Option Node
  | .table origin entries =>
    match entries.lookup key with
    | none => some (.table origin (entries ++ [(key, .table .header [])]))
    | some (.table .implied inner) =>
      some (.table origin (assign key (.table .header inner) entries))
    | some _ => none
  | _ => none

/-- Opens another one of the tables that headers in two brackets name. -/
def openElement (key : String) : Node → Option Node
  | .table origin entries =>
    match entries.lookup key with
    | none => some (.table origin (entries ++ [(key, .tables [.table .header []])]))
    | some (.tables elements) =>
      some (.table origin (assign key (.tables (elements ++ [.table .header []])) entries))
    | some _ => none
  | _ => none

/-- Opens the table that the steps of a header lead to. -/
def openAt (isElement : Bool) (steps : List String) (node : Node) : Option Node := do
  let key ← steps.getLast?
  alterAt false (if isElement then openElement key else openTable key) steps.dropLast node

end Node
end KinQuery.Toml
