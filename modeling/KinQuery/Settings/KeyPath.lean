import KinQuery.Settings.Setting
import KinQuery.Text.Blank

/-! Keys that lead into tables and lists, such as `server.bind` or `hosts[0].name`, and the
merging of one source of settings into another. -/
namespace KinQuery

/-- A step into a table or into a list. A negative index counts from the end. -/
inductive KeyStep where
  | key (name : String)
  | index (i : Int)
  deriving DecidableEq

/-- A character that a key may have without quotation marks. -/
def isBareKeyChar (c : Char) : Bool :=
  c.isAlphanum || c = '_' || c = '-'

namespace KeyStep

/-! ### Reading keys -/

def takeName (cs : List Char) : Option (KeyStep × List Char) :=
  let name := cs.takeWhile isBareKeyChar
  if name.isEmpty then none else some (.key (.ofList name), cs.drop name.length)

def skipBlanks (cs : List Char) : List Char :=
  cs.dropWhile fun c => c = ' ' || c = '\t'

/-- Reads an index of 64 bits with its closing bracket. -/
def takeIndex (cs : List Char) : Option (KeyStep × List Char) := do
  let cs := skipBlanks cs
  let negative := cs.head? = some '-'
  let cs := if negative then cs.tail else cs
  let digits := cs.takeWhile Char.isDigit
  let n ← Text.readNat? digits
  let ']' :: rest := skipBlanks (cs.drop digits.length) | none
  guard (n < 9223372036854775808 + if negative then 1 else 0)
  some (.index (if negative then -(n : Int) else n), rest)

/-- Reads the steps after the first one; each takes at least one character. -/
def takeSteps : (bound : Nat) → List Char → Option (List KeyStep)
  | _, [] => some []
  | 0, _ => none
  | bound + 1, c :: cs => do
    let (step, rest) ← if c = '.' then takeName cs else if c = '[' then takeIndex cs else none
    (takeSteps bound rest).map (step :: ·)

/-- The steps of a key. A key that is no sequence of steps is one step itself. -/
def ofKey (key : String) : List KeyStep :=
  let steps := do
    let (step, rest) ← takeName key.toList
    (takeSteps rest.length rest).map (step :: ·)
  steps.getD [.key key]

end KeyStep

namespace Setting

/-! ### Merging -/

/-- Changes an item of a list, which becomes longer if it has too few. -/
def alterItem (index : Int) (change : Setting → Setting) (items : List Setting) :
    List Setting :=
  let fromStart := if 0 ≤ index then index else items.length + index
  let items := List.replicate (-fromStart).toNat .nothing ++ items
  let missing := fromStart.toNat + 1 - items.length
  (items ++ List.replicate missing .nothing).modify fromStart.toNat change

/-- Changes what is at the end of a path. Whatever is in the way of a step gives way to an
empty table or list. -/
def alterAt (change : Setting → Setting) : List KeyStep → Setting → Setting
  | [], setting => change setting
  | .key name :: steps, setting => .table (alter name (alterAt change steps) setting.entries)
  | .index i :: steps, setting => .list (alterItem i (alterAt change steps) setting.items)

mutual

/-- Puts a value in the place of another one. A table is merged into it entry by entry; any
other value replaces it. -/
def merge (current : Setting) : Setting → Setting
  | .table entries =>
    mergeEntries (match current with
      | .nothing => .table []
      | current => current) entries
  | value => value

def mergeEntries (current : Setting) : List (String × Setting) → Setting
  | [] => current
  | (key, value) :: entries =>
    mergeEntries (.table (alter key (fun old => merge old value) current.entries)) entries

end

/-- Merges the entries of a source, whose keys may lead into tables and lists. -/
def mergeSource (root : Setting) (source : List (String × Setting)) : Setting :=
  source.foldl (fun root (key, value) =>
    alterAt (fun old => merge old value) (KeyStep.ofKey key) root) root

end Setting
end KinQuery
