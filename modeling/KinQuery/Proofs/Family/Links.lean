import KinQuery.Family.Tree
import Mathlib.Data.List.Induction

/-! What every vertex of a family tree holds, in closed form.

The tree is built bond by bond, each overwriting what it finds. So a vertex ends with the
spouse, the father and the mother of the last bond that gives it one, and with the children of
all its bonds in their order. Nothing is assumed of the persons and bonds here. -/
namespace KinQuery

/-- The place of the first person with an id. -/
def placeOf (people : List Profile) (id : PersonId) : Option Nat :=
  people.findIdx? (·.id = id)

theorem exists_of_placeOf {people : List Profile} {id : PersonId} {i : Nat}
    (placed : placeOf people id = some i) :
    ∃ p, people[i]? = some p ∧ p.id = id := by
  obtain ⟨lt, here, -⟩ := List.findIdx?_eq_some_iff_getElem.1 placed
  exact ⟨people[i], List.getElem?_eq_getElem lt, by simpa using here⟩

namespace Bond

/-- Whom a bond marries the person at place `i` to, and when. -/
def partnerOf (people : List Profile) (i : Nat) : Bond → Option (Nat × Date)
  | .marital first second wedding =>
    match placeOf people first, placeOf people second with
    | some a, some b =>
      if b = i then some (a, wedding) else if a = i then some (b, wedding) else none
    | _, _ => none
  | .parental .. => none

/-- The child that a bond gives the person at place `i`. -/
def childOf (people : List Profile) (i : Nat) : Bond → Option Nat
  | .parental parent child =>
    match placeOf people parent, placeOf people child with
    | some p, some c => if p = i then some c else none
    | _, _ => none
  | .marital .. => none

/-- The parent of a sex that a bond gives the person at place `i`. -/
def parentOf (people : List Profile) (sex : Sex) (i : Nat) : Bond → Option Nat
  | .parental parent child =>
    match placeOf people parent, placeOf people child with
    | some p, some c => if c = i ∧ people[p]?.map (·.sex) = some sex then some p else none
    | _, _ => none
  | .marital .. => none

end Bond

namespace Vertex

/-- The vertex at place `i` once one more bond is linked. -/
def linked (people : List Profile) (i : Nat) (bond : Bond) (v : Vertex) : Vertex :=
  { profile := v.profile
    father := (bond.parentOf people .male i).or v.father
    mother := (bond.parentOf people .female i).or v.mother
    spouse := ((bond.partnerOf people i).map (·.1)).or v.spouse
    wedding := ((bond.partnerOf people i).map (·.2)).or v.wedding
    children := v.children ++ (bond.childOf people i).toList }

/-- The vertex of the person at place `i`, drawn from all bonds. -/
def drawn (people : List Profile) (bonds : List Bond) (i : Nat) (profile : Profile) : Vertex :=
  { profile
    father := (bonds.filterMap (·.parentOf people .male i)).getLast?
    mother := (bonds.filterMap (·.parentOf people .female i)).getLast?
    spouse := (bonds.filterMap (·.partnerOf people i)).getLast?.map (·.1)
    wedding := (bonds.filterMap (·.partnerOf people i)).getLast?.map (·.2)
    children := bonds.filterMap (·.childOf people i) }

theorem drawn_concat (people : List Profile) (bonds : List Bond) (bond : Bond) (i : Nat)
    (profile : Profile) :
    drawn people (bonds ++ [bond]) i profile =
      (drawn people bonds i profile).linked people i bond := by
  have last {α : Type} (found : List α) (new : Option α) :
      (found ++ new.toList).getLast? = new.or found.getLast? := by
    cases new <;> simp
  have split {α : Type} (f : Bond → Option α) :
      (bonds ++ [bond]).filterMap f = bonds.filterMap f ++ (f bond).toList := by
    rw [List.filterMap_append]
    cases h : f bond <;> simp [h]
  simp only [drawn, linked, split, last]
  cases bond.partnerOf people i <;> simp

end Vertex

namespace FamilyTree
variable {tree : FamilyTree} {people : List Profile}

/-- A tree with one vertex for each of some people, in their order. -/
def Seats (tree : FamilyTree) (people : List Profile) : Prop :=
  tree.vertices.map (·.profile) = people

theorem Seats.indexOf? (seats : tree.Seats people) (id : PersonId) :
    tree.indexOf? id = placeOf people id := by
  rw [FamilyTree.indexOf?, placeOf, ← seats, List.findIdx?_map]
  rfl

theorem Seats.person? (seats : tree.Seats people) (i : Nat) : tree.person? i = people[i]? := by
  rw [FamilyTree.person?, vertex?, ← seats, List.getElem?_map]

theorem modify_vertex? (tree : FamilyTree) (j : Nat) (f : Vertex → Vertex) (i : Nat) :
    (tree.modify j f).vertex? i = (tree.vertex? i).map (if j = i then f else id) := by
  rw [vertex?, modify, List.getElem?_modify, Option.map_eq_map]
  split <;> rfl

/-- One bond, seen from each vertex. -/
theorem link_vertex? (seats : tree.Seats people) (bond : Bond) (i : Nat) :
    (tree.link bond).vertex? i = (tree.vertex? i).map (·.linked people i bond) := by
  cases bond with
  | marital first second wedding =>
    simp only [link, seats.indexOf?]
    match ha : placeOf people first, hb : placeOf people second with
    | some a, some b =>
      simp only [modify_vertex?, Option.map_map]
      congr 1
      funext v
      -- the second person is linked last, which shows if both are the same
      by_cases second : b = i
      · by_cases first : a = i <;>
          simp [Vertex.linked, Bond.partnerOf, Bond.parentOf, Bond.childOf, ha, hb, second, first,
            Vertex.setSpouse]
      · by_cases first : a = i <;>
          simp [Vertex.linked, Bond.partnerOf, Bond.parentOf, Bond.childOf, ha, hb, second, first,
            Vertex.setSpouse]
    | none, _ => simp [Vertex.linked, Bond.partnerOf, Bond.parentOf, Bond.childOf, ha]
    | some a, none => simp [Vertex.linked, Bond.partnerOf, Bond.parentOf, Bond.childOf, ha, hb]
  | parental parent child =>
    simp only [link, seats.indexOf?]
    match hp : placeOf people parent, hc : placeOf people child with
    | some p, some c =>
      obtain ⟨profile, found, -⟩ := exists_of_placeOf hp
      have given (sex : Sex) : (Bond.parental parent child).parentOf people sex i =
          if c = i ∧ profile.sex = sex then some p else none := by
        simp [Bond.parentOf, hp, hc, found]
      simp only [seats.person?, found, modify_vertex?, Option.map_map]
      congr 1
      funext v
      by_cases here : c = i <;> by_cases above : p = i <;> cases sex : profile.sex <;>
        simp [Vertex.linked, Bond.partnerOf, given, Bond.childOf, hp, hc, here, above, sex,
          Vertex.setParent, Vertex.addChild]
    | none, _ => simp [Vertex.linked, Bond.partnerOf, Bond.parentOf, Bond.childOf, hp]
    | some a, none => simp [Vertex.linked, Bond.partnerOf, Bond.parentOf, Bond.childOf, hp, hc]

theorem modify_seats (seats : tree.Seats people) (j : Nat) {f : Vertex → Vertex}
    (keeps : ∀ v, (f v).profile = v.profile) : (tree.modify j f).Seats people := by
  rw [Seats, ← seats]
  refine List.ext_getElem? fun i => ?_
  simp only [modify, List.getElem?_map, List.getElem?_modify, Option.map_eq_map, Option.map_map]
  congr 1
  funext v
  by_cases here : j = i <;> simp [here, keeps]

theorem link_seats (seats : tree.Seats people) (bond : Bond) : (tree.link bond).Seats people := by
  have parent (sex : Sex) (p : Nat) (v : Vertex) : (v.setParent sex p).profile = v.profile := by
    cases sex <;> rfl
  cases bond with
  | marital first second wedding =>
    rw [link]
    split
    · refine modify_seats (modify_seats seats _ ?_) _ ?_ <;> exact fun _ => rfl
    · exact seats
  | parental p c =>
    rw [link]
    split
    · split
      · exact modify_seats (modify_seats seats _ (f := (·.addChild _)) fun _ => rfl) _ (parent _ _)
      · exact seats
    · exact seats

/-- The tree after some bonds, in closed form. -/
theorem build_spec (people : List Profile) (bonds : List Bond) :
    (build people bonds).Seats people ∧
      ∀ i, (build people bonds).vertex? i = people[i]?.map (Vertex.drawn people bonds i) := by
  induction bonds using List.reverseRec with
  | nil =>
    constructor
    · simp [build, ofPeople, Seats, Function.comp_def]
    · intro i
      rw [build, List.foldl_nil, ofPeople, vertex?, List.getElem?_map]
      rfl
  | append_singleton bonds bond ih =>
    obtain ⟨seats, drawn⟩ := ih
    have one : build people (bonds ++ [bond]) = (build people bonds).link bond := by
      simp [build]
    rw [one]
    refine ⟨link_seats seats bond, fun i => ?_⟩
    rw [link_vertex? seats, drawn, Option.map_map]
    congr 1
    funext p
    exact (Vertex.drawn_concat people bonds bond i p).symm

end FamilyTree
end KinQuery
