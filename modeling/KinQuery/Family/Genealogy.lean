import KinQuery.Failure
import KinQuery.Family.Tree
import KinQuery.Text.Quote

/-! The genealogy: persons, their bonds, and the family tree once it was asked for.

Every edit checks that the genealogy stays consistent, and drops the tree. -/
namespace KinQuery

structure Genealogy where
  people : List Profile := []
  bonds : List Bond := []
  tree? : Option FamilyTree := none
  deriving DecidableEq

namespace Genealogy

def empty : Genealogy := {}

def person? (g : Genealogy) (id : PersonId) : Option Profile :=
  g.people.find? (·.id = id)

/-- The person with an id, who has to exist. -/
def require (g : Genealogy) (id : PersonId) : Except Failure Profile :=
  match g.person? id with
  | some profile => .ok profile
  | none => .error (.unknownPerson id)

def isMarried (g : Genealogy) (id : PersonId) : Bool :=
  g.bonds.any fun bond => bond.isMarital && bond.links id

/-- The bonds that a person takes part in. -/
def bondsOf (g : Genealogy) (id : PersonId) : List Bond :=
  g.bonds.filter (·.links id)

/-- The family tree, and the genealogy that remembers it. -/
def tree (g : Genealogy) : FamilyTree × Genealogy :=
  match g.tree? with
  | some tree => (tree, g)
  | none =>
    let tree := .build g.people g.bonds
    (tree, { g with tree? := some tree })

/-- The same persons with other bonds. -/
def withBonds (g : Genealogy) (bonds : List Bond) : Genealogy :=
  { people := g.people, bonds }

/-! ### Edits -/

/-- Adds a person with an id of their own. No text of theirs may hold a quote, which no
string literal can spell. -/
def addPerson (g : Genealogy) (profile : Profile) : Except Failure Genealogy :=
  if (g.person? profile.id).isSome then .error (.personExists profile.id)
  else match profile.texts.find? fun (_, text) => text.toList.contains Text.quote with
    | some (field, text) => .error (.quoteInProfile field profile.id text)
    | none => .ok { people := g.people ++ [profile], bonds := g.bonds }

/-- Removes a person and every bond of theirs. -/
def removePerson (g : Genealogy) (id : PersonId) : Except Failure Genealogy := do
  let _ ← g.require id
  .ok { people := g.people.filter (·.id ≠ id), bonds := g.bonds.filter fun b => !b.links id }

/-- Marries two different persons, neither of them married. -/
def marry (g : Genealogy) (first second : PersonId) (wedding : Date) :
    Except Failure Genealogy := do
  let _ ← g.require first
  let _ ← g.require second
  if first = second then .error (.marriesSelf first)
  else match [first, second].find? g.isMarried with
    | some married => .error (.alreadyMarried married)
    | none => .ok (g.withBonds (g.bonds ++ [.marital first second wedding]))

def divorce (g : Genealogy) (first second : PersonId) : Except Failure Genealogy :=
  let bonds := g.bonds.filter fun bond => !bond.marries first second
  if bonds.length = g.bonds.length then .error (.notMarried first second)
  else .ok (g.withBonds bonds)

/-- Whether a bond gives `child` the parent named, or one of the same sex. -/
def givesParent (g : Genealogy) (parent : PersonId) (sex : Sex) (child : PersonId) :
    Bond → Bool
  | .parental p c => c = child && (p = parent || (g.person? p).map (·.sex) = some sex)
  | .marital .. => false

/-- Makes one person a parent of another, who has no parent of that sex. -/
def addParentage (g : Genealogy) (parent child : PersonId) : Except Failure Genealogy := do
  let profile ← g.require parent
  let _ ← g.require child
  if parent = child then .error (.parentOfSelf parent)
  else if g.bonds.any (g.givesParent parent profile.sex child) then
    .error (.parentExists child profile.sex)
  else .ok (g.withBonds (g.bonds ++ [.parental parent child]))

def removeParentage (g : Genealogy) (parent child : PersonId) : Except Failure Genealogy :=
  let bonds := g.bonds.filter (· ≠ .parental parent child)
  if bonds.length = g.bonds.length then .error (.notParent parent child)
  else .ok (g.withBonds bonds)

/-- Adds a bond as the edit of its kind does. -/
def addBond (g : Genealogy) : Bond → Except Failure Genealogy
  | .marital first second wedding => g.marry first second wedding
  | .parental parent child => g.addParentage parent child

/-- The genealogy of persons and bonds added one by one. -/
def make (people : List Profile) (bonds : List Bond) : Except Failure Genealogy := do
  let g ← people.foldlM addPerson empty
  bonds.foldlM addBond g

end Genealogy

/-- The persons and bonds of a genealogy, as they are recorded. -/
structure Snapshot where
  people : List Profile := []
  bonds : List Bond := []
  deriving DecidableEq

namespace Genealogy

def snapshot (g : Genealogy) : Snapshot :=
  ⟨g.people, g.bonds⟩

def ofSnapshot (s : Snapshot) : Except Failure Genealogy :=
  make s.people s.bonds

end Genealogy
end KinQuery
