import KinQuery.Family.Search
import KinQuery.Family.Tree

/-! Kinship: how one person is related to another, as a chain of basic terms along a
shortest way through the tree, and how many generations lie between them. -/
namespace KinQuery

/-- The basic kinship terms. -/
inductive Kin where
  | father
  | mother
  | husband
  | wife
  | son
  | daughter
  deriving DecidableEq

namespace Kin

def all : List Kin :=
  [.father, .mother, .husband, .wife, .son, .daughter]

def word : Kin → String
  | .father => "father"
  | .mother => "mother"
  | .husband => "husband"
  | .wife => "wife"
  | .son => "son"
  | .daughter => "daughter"

/-- The generations that one step leads up. -/
def rise : Kin → Int
  | .father | .mother => 1
  | .husband | .wife => 0
  | .son | .daughter => -1

end Kin

namespace FamilyTree

/-- What `relative` is to the vertex `i`, for two neighbours. -/
def kinOf (tree : FamilyTree) (i relative : Nat) : Option Kin := do
  let vertex ← tree.vertex? i
  let profile ← tree.person? relative
  if vertex.spouse = some relative then
    some (if profile.sex = .male then .husband else .wife)
  else if vertex.father = some relative then some .father
  else if vertex.mother = some relative then some .mother
  else some (if profile.sex = .male then .son else .daughter)

/-- The predecessor of each vertex that a search from `start` discovers. -/
def search (tree : FamilyTree) (start : Nat) : List (Nat × Nat) :=
  Search.predecessors tree.neighbours tree.size start

/-- How `a` is related to `b`: the basic terms of the steps that lead from `b` to `a`. There
are none from a person to themselves, nor between persons who are not connected. -/
def kinship (tree : FamilyTree) (a b : Nat) : List Kin :=
  let found := tree.search a
  (Search.wayBack found found.length b).filterMap fun (i, relative) => tree.kinOf i relative

/-- The generations that `a` stands above `b`. -/
def generationDistance (tree : FamilyTree) (a b : Nat) : Int :=
  ((tree.kinship a b).map Kin.rise).foldl (· + ·) 0

end FamilyTree
end KinQuery
