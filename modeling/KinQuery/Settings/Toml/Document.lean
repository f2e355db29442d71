import KinQuery.Settings.Toml.Value

/-! TOML documents: lines with keys and values, and headers of the tables that they are in. -/
namespace KinQuery.Toml

/-- How deep arrays and inline tables may go. -/
def depthLimit : Nat := 80

/-- Reads a header after its first bracket: whether it has two brackets, and its steps. -/
def takeHeader (cs : List Char) : Option ((Bool × List String) × List Char) := do
  let isElement := cs.head? = some '['
  let (steps, rest) ← takeKey cs.length (if isElement then cs.tail else cs)
  let ']' :: rest := rest | none
  if isElement then
    let ']' :: rest := rest | none
    some ((true, steps), rest)
  else some ((false, steps), rest)

/-- Reads lines into a node, below the steps of the last header. -/
def readLines (header : List String) (node : Node) :
    (bound : Nat) → List Char → Option Setting
  | 0, _ => none
  | bound + 1, cs =>
    match skipLayout cs with
    | [] => some node.toSetting
    | '[' :: cs => do
      let ((isElement, steps), rest) ← takeHeader cs
      let rest ← nextLine rest
      let node ← node.openAt isElement steps
      readLines steps node bound rest
    | cs => do
      let ((steps, setting), rest) ← takeEntry (takeValue depthLimit) cs
      let rest ← nextLine rest
      let node ← node.alterAt false (·.add steps setting) header
      readLines header node bound rest

/-- Drops the mark that a text may begin with to show its encoding. -/
def dropMark : List Char → List Char
  | '\uFEFF' :: cs => cs
  | cs => cs

/-- The table that a document spells. -/
def parse? (text : String) : Option Setting :=
  let cs := dropMark text.toList
  readLines [] (.table .header []) (cs.length + 1) cs

end KinQuery.Toml
