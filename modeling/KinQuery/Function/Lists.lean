import KinQuery.Value

/-! Lists. -/
namespace KinQuery.Lists

def count (a : Value) : Except Failure Value := do
  let items ← a.asList Primitive.count.name
  .ok (.numeral (.nearest items.length))

/-- The item at a position; negative ones count from the end. There is void at all others. -/
def item (a b : Value) : Except Failure Value := do
  let items ← a.asList Primitive.at.name
  let index ← b.asNumeral Primitive.at.name
  let position := if index.val < 0 then items.length + index.val else index.val
  if position < 0 then .ok .void else .ok (items[position.toNat]?.getD .void)

def join (arguments : List Value) : Except Failure Value := do
  let lists ← arguments.mapM (·.asList Primitive.join.name)
  .ok (.list lists.flatten)

/-- Appends all further arguments to the list that comes first. -/
def append : List Value → Except Failure Value
  | [] => .error (.wrongArgumentCount Primitive.append.name Primitive.append.arity 0)
  | a :: items => do
    let first ← a.asList Primitive.append.name
    .ok (.list (first ++ items))

/-- The first item, or the empty list if there is none. -/
def head (a : Value) : Except Failure Value := do
  let items ← a.asList Primitive.head.name
  .ok (items.head?.getD .vacant)

def tail (a : Value) : Except Failure Value := do
  let items ← a.asList Primitive.tail.name
  .ok (.list items.tail)

end KinQuery.Lists
