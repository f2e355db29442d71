import KinQuery.Family.Profile
import KinQuery.Text.LowerCase

/-! The family tree: one vertex for each person, linked by father, mother, spouse and
children. Vertices refer to each other by their place in the tree. -/
namespace KinQuery

structure Vertex where
  profile : Profile
  father : Option Nat := none
  mother : Option Nat := none
  spouse : Option Nat := none
  wedding : Option Date := none
  children : List Nat := []
  deriving DecidableEq

namespace Vertex

/-- Everyone a vertex is linked to, in the order in which a search looks at them. -/
def neighbours (v : Vertex) : List Nat :=
  v.father.toList ++ v.mother.toList ++ v.spouse.toList ++ v.children

def setSpouse (v : Vertex) (spouse : Nat) (wedding : Date) : Vertex :=
  { v with spouse := some spouse, wedding := some wedding }

/-- Links a vertex to a parent of the given sex. -/
def setParent (v : Vertex) (sex : Sex) (parent : Nat) : Vertex :=
  match sex with
  | .male => { v with father := some parent }
  | .female => { v with mother := some parent }

def addChild (v : Vertex) (child : Nat) : Vertex :=
  { v with children := v.children ++ [child] }

end Vertex

structure FamilyTree where
  vertices : List Vertex
  deriving DecidableEq

namespace FamilyTree

def size (tree : FamilyTree) : Nat :=
  tree.vertices.length

def vertex? (tree : FamilyTree) (i : Nat) : Option Vertex :=
  tree.vertices[i]?

def person? (tree : FamilyTree) (i : Nat) : Option Profile :=
  (tree.vertex? i).map (·.profile)

/-- The place of the person with an id. -/
def indexOf? (tree : FamilyTree) (id : PersonId) : Option Nat :=
  tree.vertices.findIdx? (·.profile.id = id)

/-- The tree of unlinked persons. -/
def ofPeople (people : List Profile) : FamilyTree :=
  ⟨people.map fun profile => { profile }⟩

def modify (tree : FamilyTree) (i : Nat) (f : Vertex → Vertex) : FamilyTree :=
  ⟨tree.vertices.modify i f⟩

/-- Adds the links of one bond, if both of its persons are in the tree. -/
def link (tree : FamilyTree) : Bond → FamilyTree
  | .marital first second wedding =>
    match tree.indexOf? first, tree.indexOf? second with
    | some a, some b => (tree.modify a (·.setSpouse b wedding)).modify b (·.setSpouse a wedding)
    | _, _ => tree
  | .parental parent child =>
    match tree.indexOf? parent, tree.indexOf? child with
    | some p, some c =>
      match tree.person? p with
      | some profile => (tree.modify p (·.addChild c)).modify c (·.setParent profile.sex p)
      | none => tree
    | _, _ => tree

def build (people : List Profile) (bonds : List Bond) : FamilyTree :=
  bonds.foldl link (ofPeople people)

def neighbours (tree : FamilyTree) (i : Nat) : List Nat :=
  ((tree.vertex? i).map Vertex.neighbours).getD []

/-! ### Finding persons by name -/

/-- Whether a person bears the two names, both in small letters. An empty name matches any,
but only one of the two. -/
def bears (first last : String) (p : Profile) : Bool :=
  if first.isEmpty then Text.lowerCase p.lastName = last
  else if last.isEmpty then Text.lowerCase p.firstName = first
  else Text.lowerCase p.firstName = first && Text.lowerCase p.lastName = last

/-- The first person with these names, whatever the case of their letters. -/
def find? (tree : FamilyTree) (first last : String) : Option Nat :=
  let first := Text.lowerCase first
  let last := Text.lowerCase last
  tree.vertices.findIdx? fun v => bears first last v.profile

/-- A full name, cut at its first space into a first and a last name. -/
def cutName (name : String) : String × String :=
  let cs := name.toList
  (.ofList (cs.takeWhile (· ≠ ' ')), .ofList ((cs.dropWhile (· ≠ ' ')).drop 1))

def findByFullName? (tree : FamilyTree) (name : String) : Option Nat :=
  let (first, last) := cutName name
  tree.find? first last

end FamilyTree
end KinQuery
