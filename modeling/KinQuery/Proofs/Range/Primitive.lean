import KinQuery.Proofs.Function.Answer
import KinQuery.Proofs.Range.Function

/-! Calls of primitive functions stay in range.

The number of arguments is checked before a call, and a function takes its arguments by their
positions. What else it does by position is in range whatever the arguments are, as long as they
have a place in memory, and whatever becomes of the genealogy. -/
namespace KinQuery

/-- What holds of every session, since persons have a place in memory and today is on the
calendar. -/
structure Session.Fits (s : Session) : Prop where
  people : s.genealogy.people.length < 2 ^ 63
  today : Date.isRecordedYear s.today.year = true

namespace Range

/-- The arguments of a function. They are taken one by one if their number is fixed. -/
def taken (arity : Arity) (arguments : List Value) : Option (List Value) :=
  match arity with
  | .exactly n => (List.range n).mapM (arguments[·]?)
  | _ => some arguments

theorem mapM_range_length {α : Type} (items : List α) :
    (List.range items.length).mapM (items[·]?) = some items := by
  induction items with
  | nil => rfl
  | cons item items ih =>
    rw [List.length_cons, List.range_succ_eq_map, List.mapM_cons, List.mapM_map]
    simp only [Function.comp_def, List.getElem?_cons_succ, Nat.succ_eq_add_one]
    rw [ih]
    rfl

theorem taken_eq {arity : Arity} {arguments : List Value}
    (accepts : arity.accepts arguments.length = true) : taken arity arguments = some arguments := by
  cases arity with
  | exactly n =>
    obtain rfl : arguments.length = n := by simpa [Arity.accepts] using accepts
    exact mapM_range_length arguments
  | atLeast n => rfl
  | between low high => rfl

theorem length_eq {arity : Arity} {arguments : List Value} {n : Nat}
    (accepts : arity.accepts arguments.length = true) (fixed : arity = .exactly n) :
    arguments.length = n := by
  subst fixed
  simpa [Arity.accepts] using accepts

end Range

namespace Checked

open Range

def unary (arguments : List Value) (f : Value → Checked Value) : Checked Value := do
  let a ← step arguments[0]?
  f a

def binary (arguments : List Value) (f : Value → Value → Checked Value) : Checked Value := do
  let a ← step arguments[0]?
  let b ← step arguments[1]?
  f a b

/-- A value that depends on the session, in particular on the family tree. -/
def consult (f : FamilyTree → Session → Checked Value) : Checked Value := do
  let tree ← tree
  f tree (← get)

/-- The second list is looked for, but need not be there. -/
def map (apply : Function Value → List Value → Run Value) (arguments : List Value) :
    Checked Value := do
  let a ← step arguments[0]?
  let b ← step arguments[1]?
  ofRun (Primitive.callMap apply (a :: b :: arguments[2]?.toList))

/-- Calls a primitive function. -/
def call (apply : Function Value → List Value → Run Value) (p : Primitive)
    (arguments : List Value) : Checked Value :=
  match p with
  | .count => unary arguments count
  | .at => binary arguments item
  | .append => append arguments
  | .tail => unary arguments tail
  | .substring => substring arguments
  | .date => unary arguments date
  | .map => map apply arguments
  | .person => consult fun tree _ => ofExcept (People.find tree arguments)
  | .father => consult fun tree _ => unary arguments fun a =>
    ofExcept (People.related tree p.name (·.father.toList) a)
  | .mother => consult fun tree _ => unary arguments fun a =>
    ofExcept (People.related tree p.name (·.mother.toList) a)
  | .spouse => consult fun tree _ => unary arguments fun a =>
    ofExcept (People.related tree p.name (·.spouse.toList) a)
  | .children => consult fun tree _ => unary arguments fun a =>
    ofExcept (People.related tree p.name (·.children) a)
  | .attr => consult fun tree s => binary arguments (attributeNamed tree s.today)
  | .kinship => consult fun tree _ => binary arguments (kinship tree)
  | .generationDistance => consult fun tree _ => binary arguments (generationDistance tree)
  | .shorten => do
    let s ← get
    unary arguments (shorten s.dictionary)
  | .relatives => consult fun tree s => binary arguments (relatives tree s.dictionary)
  | p => do
    let arguments ← step (taken p.arity arguments)
    ofRun (p.call apply arguments)

variable {exact : Prop} {s : Session} {p : Primitive} {arguments : List Value}

theorem unary_follows {f : Value → Checked Value} {g : Value → Except Failure Value}
    (one : arguments.length = 1)
    (each : ∀ a ∈ arguments, Follows exact (f a) (.ofExcept (g a)) s) :
    Follows exact (unary arguments f) (.ofExcept (p.unary arguments g)) s := by
  obtain ⟨a, rfl⟩ := List.length_eq_one_iff.1 one
  exact .step_bind rfl (each a List.mem_cons_self)

theorem binary_follows {f : Value → Value → Checked Value}
    {g : Value → Value → Except Failure Value}
    (two : arguments.length = 2)
    (each : ∀ a ∈ arguments, ∀ b ∈ arguments, Follows exact (f a b) (.ofExcept (g a b)) s) :
    Follows exact (binary arguments f) (.ofExcept (p.binary arguments g)) s := by
  obtain ⟨a, b, rfl⟩ := List.length_eq_two.1 two
  exact .step_bind rfl (.step_bind rfl (each a (by simp) b (by simp)))

theorem consult_follows {f : FamilyTree → Session → Checked Value}
    {g : FamilyTree → Session → Except Failure Value} (reached : s.genealogy.Reachable)
    (next : Follows exact (f s.tree.1 s.tree.2) (.ofExcept (g s.tree.1 s.tree.2)) s.tree.2) :
    Follows exact (consult f) (Primitive.consult g) s := by
  refine .bind (run_tree reached) fun tree t h => ?_
  obtain ⟨rfl, rfl⟩ : s.tree.1 = tree ∧ s.tree.2 = t := by
    cases h
    exact ⟨rfl, rfl⟩
  refine .bind (c := get) (m := get) rfl fun u v h => ?_
  cases h
  exact next

theorem map_follows {apply : Function Value → List Value → Run Value}
    (accepts : Primitive.map.arity.accepts arguments.length = true) :
    Follows exact (map apply arguments) (Primitive.callMap apply arguments) s := by
  obtain ⟨a, b, rfl⟩ | ⟨a, b, c, rfl⟩ := two_or_three accepts <;>
    exact .step_bind rfl (.step_bind rfl (.refl _))

/-- A call with a number of arguments that the function takes goes through. It is the call of the
function if the persons have marks of their own in a search. -/
theorem call_follows (reached : s.genealogy.Reachable) (session : s.Fits)
    (accepts : p.arity.accepts arguments.length = true) (fits : ∀ v ∈ arguments, v.Fits)
    (plain : p = .date → ∀ text, .string text ∈ arguments → Date.HasPlainDay text)
    (apply : Function Value → List Value → Run Value) :
    Follows (s.genealogy.people.length ≤ 2 ^ 32) (call apply p arguments) (p.call apply arguments)
      s := by
  have mirror : s.tree.1.Mirrors s.genealogy := reached.mirrors
  have size : s.tree.1.size = s.genealogy.people.length := mirror.size
  have small (few : s.genealogy.people.length ≤ 2 ^ 32) : s.tree.1.size ≤ 2 ^ 32 := size ▸ few
  have large : s.tree.1.size < 2 ^ 63 := size ▸ session.people
  have links : ∀ i v, s.tree.1.vertex? i = some v → ∀ j ∈ v.neighbours, j < s.tree.1.size :=
    mirror.range
  cases p with
  | count => exact unary_follows (length_eq accepts rfl) fun a ha => count_follows (fits a ha)
  | «at» => exact binary_follows (length_eq accepts rfl) fun a ha b _ => item_follows (fits a ha)
  | append =>
    have two_le : 2 ≤ arguments.length := by simpa [Primitive.arity, Arity.accepts] using accepts
    exact append_follows two_le
  | tail => exact unary_follows (length_eq accepts rfl) fun a _ => tail_follows
  | substring => exact substring_follows accepts fits
  | date =>
    exact unary_follows (length_eq accepts rfl) fun a ha => date_follows fun text h =>
      plain rfl text (h ▸ ha)
  | map => exact map_follows accepts
  | person => exact consult_follows reached (.refl _)
  | father | mother | spouse | children =>
    exact consult_follows reached (unary_follows (length_eq accepts rfl) fun a _ => .refl _)
  | attr =>
    exact consult_follows reached <| binary_follows (length_eq accepts rfl) fun a ha b _ =>
      attributeNamed_follows session.today (fits a ha)
  | kinship =>
    exact consult_follows reached <| binary_follows (length_eq accepts rfl) fun a _ b _ =>
      kinship_follows small links
  | generationDistance =>
    exact consult_follows reached <| binary_follows (length_eq accepts rfl) fun a _ b _ =>
      generationDistance_follows small links large
  | shorten =>
    refine .bind (c := get) (m := get) rfl fun t u h => ?_
    cases h
    exact unary_follows (length_eq accepts rfl) fun a ha => shorten_follows _ (fits a ha)
  | relatives =>
    exact consult_follows reached <| binary_follows (length_eq accepts rfl) fun a _ b _ =>
      relatives_follows small links large _
  | _ => exact .step_bind (taken_eq accepts) (.refl _)

end Checked
end KinQuery
