import KinQuery.Function.Arguments
import KinQuery.Function.Booleans
import KinQuery.Function.Dates
import KinQuery.Function.Host
import KinQuery.Function.Lists
import KinQuery.Function.Numerals
import KinQuery.Function.People
import KinQuery.Function.Strings
import KinQuery.Session.Run

/-! Calling primitive and registered functions. Most compute a value from their arguments
alone; some look at the session, two call the function they are given, and one changes the
dictionary. -/
namespace KinQuery

/-- What one may ask of a kind by name: whether it is the kind of a value. -/
def isOfKind (v name : Value) : Except Failure Value := do
  let name ← name.asString Primitive.ofType.name
  .ok (.boolean (Kind.ofName? name = some v.kind))

/-- The items for which a function says true. -/
def filterItems (apply : Function Value → List Value → Run Value) (f : Function Value) :
    List Value → Run (List Value)
  | [] => pure []
  | item :: items => do
    let verdict ← apply f [item]
    let kept ← Run.ofExcept (verdict.asBoolean f.name)
    let rest ← filterItems apply f items
    pure (if kept then item :: rest else rest)

namespace Primitive

def callFilter (apply : Function Value → List Value → Run Value) (arguments : List Value) :
    Run Value :=
  match arguments with
  | [a, b] => do
    let f ← Run.ofExcept (a.asFunction filter.name)
    let items ← Run.ofExcept (b.asList filter.name)
    return .list (← filterItems apply f items)
  | _ => Run.ofExcept (filter.refuse arguments)

/-- Applies a function to every item of a list, or to the items of two lists in pairs, up to
the end of the shorter one. -/
def callMap (apply : Function Value → List Value → Run Value) (arguments : List Value) :
    Run Value :=
  match arguments with
  | [a, b] => do
    let f ← Run.ofExcept (a.asFunction map.name)
    let items ← Run.ofExcept (b.asList map.name)
    return .list (← items.mapM fun item => apply f [item])
  | [a, b, c] => do
    let f ← Run.ofExcept (a.asFunction map.name)
    let first ← Run.ofExcept (b.asList map.name)
    let second ← Run.ofExcept (c.asList map.name)
    return .list (← (first.zip second).mapM fun (x, y) => apply f [x, y])
  | _ => Run.ofExcept (map.refuse arguments)

def callPut (arguments : List Value) : Run Value :=
  match arguments with
  | [a, b] => do
    let key ← Run.ofExcept (a.asString putKinshipTerm.name)
    let name ← Run.ofExcept (b.asString putKinshipTerm.name)
    let _ ← Run.change (·.putKinshipTerm key name)
    return .void
  | _ => Run.ofExcept (putKinshipTerm.refuse arguments)

/-- The value of a primitive function that depends on its arguments alone. -/
def compute (p : Primitive) (arguments : List Value) : Except Failure Value :=
  match p with
  | equal => p.binary arguments fun a b => .ok (.boolean (a.same b))
  | ofType => p.binary arguments isOfKind
  | and => Booleans.conjunction arguments
  | or => Booleans.disjunction arguments
  | not => p.unary arguments Booleans.negation
  | add => Numerals.sum arguments
  | multiply => Numerals.product arguments
  | subtract => p.binary arguments Numerals.difference
  | divide => p.binary arguments Numerals.quotient
  | remainder => p.binary arguments Numerals.remainder
  | less => p.binary arguments (Numerals.compare p.name fun a b => a < b)
  | atMost => p.binary arguments (Numerals.compare p.name fun a b => a ≤ b)
  | greater => p.binary arguments (Numerals.compare p.name fun a b => b < a)
  | atLeast => p.binary arguments (Numerals.compare p.name fun a b => b ≤ a)
  | concat => Strings.concat arguments
  | chars => p.unary arguments Strings.chars
  | substring => Strings.substring arguments
  | string => p.unary arguments Strings.ofNumeral
  | before => p.binary arguments Dates.before
  | after => p.binary arguments Dates.after
  | during => p.ternary arguments Dates.during
  | day => p.unary arguments (Dates.part p.name fun d => d.day)
  | month => p.unary arguments (Dates.part p.name fun d => d.month)
  | year => p.unary arguments (Dates.part p.name (·.year))
  | date => p.unary arguments Dates.read
  | list => .ok (.list arguments)
  | count => p.unary arguments Lists.count
  | «at» => p.binary arguments Lists.item
  | join => Lists.join arguments
  | append => Lists.append arguments
  | head => p.unary arguments Lists.head
  | tail => p.unary arguments Lists.tail
  | _ => p.refuse arguments

/-- A value that depends on the session, in particular on the family tree. -/
def consult (f : FamilyTree → Session → Except Failure Value) : Run Value := do
  let tree ← Run.tree
  Run.ofExcept (f tree (← get))

def call (apply : Function Value → List Value → Run Value) (p : Primitive)
    (arguments : List Value) : Run Value :=
  match p with
  | filter => callFilter apply arguments
  | map => callMap apply arguments
  | putKinshipTerm => callPut arguments
  | person => consult fun tree _ => People.find tree arguments
  | father => consult fun tree _ =>
    p.unary arguments (People.related tree p.name (·.father.toList))
  | mother => consult fun tree _ =>
    p.unary arguments (People.related tree p.name (·.mother.toList))
  | spouse => consult fun tree _ =>
    p.unary arguments (People.related tree p.name (·.spouse.toList))
  | children => consult fun tree _ =>
    p.unary arguments (People.related tree p.name (·.children))
  | attr => consult fun tree s => p.binary arguments (People.attributeNamed tree s.today)
  | kinship => consult fun tree _ => p.binary arguments (People.kinship tree)
  | generationDistance => consult fun tree _ =>
    p.binary arguments (People.generationDistance tree)
  | shorten => do
    let s ← get
    Run.ofExcept (p.unary arguments (People.shorten s.dictionary))
  | relatives => consult fun tree s => p.binary arguments (People.relatives tree s.dictionary)
  | p => Run.ofExcept (p.compute arguments)

end Primitive

namespace HostFunction

/-- Does what a registered function does, and notes the call. -/
def call (h : HostFunction) (arguments : List Value) : Run Value := do
  modify fun s => { s with hostCalls := (h.name, arguments) :: s.hostCalls }
  match h.action with
  | .first => return arguments.head?.getD .void
  | .collect => return .list arguments
  | .expunge =>
    modify Session.expunge
    return arguments.head?.getD .void
  | .toggle =>
    modify fun s => s.setCaching (!s.cache.enabled)
    return arguments.head?.getD .void
  | .fail => Run.fail (.hostFailed h.name)
  | .compute f => Run.ofExcept (HostAction.computed f arguments)

end HostFunction
end KinQuery
