import KinQuery.Proofs.Family.Consistency
import KinQuery.Proofs.Family.Links
import Mathlib.Data.List.Nodup

/-! The family tree of a consistent genealogy shows its persons and bonds as they are.

Building a tree overwrites links, so a tree of any bonds may lose some. Of a consistent
genealogy none is lost: a vertex is given at most one spouse, one father and one mother, and
what its closed form takes from the last bond is what the only bond says. -/
namespace KinQuery

/-! ### The index of ids -/

/-- A two-way map of ids and places, filled by one insertion after the other. -/
structure IdIndex where
  pairs : List (PersonId × Nat) := []

namespace IdIndex

/-- Puts a pair in place of those that share its id or its place. -/
def insert (index : IdIndex) (id : PersonId) (place : Nat) : IdIndex :=
  ⟨index.pairs.filter (fun pair => pair.1 ≠ id ∧ pair.2 ≠ place) ++ [(id, place)]⟩

def place? (index : IdIndex) (id : PersonId) : Option Nat :=
  (index.pairs.find? (·.1 = id)).map (·.2)

def id? (index : IdIndex) (place : Nat) : Option PersonId :=
  (index.pairs.find? (·.2 = place)).map (·.1)

/-- The index of persons, each inserted with their place. -/
def ofPeople (people : List Profile) : IdIndex :=
  people.zipIdx.foldl (fun index e => index.insert e.1.id e.2) {}

theorem ofPeople_pairs {people : List Profile} (unique : (people.map (·.id)).Nodup) :
    (ofPeople people).pairs = people.zipIdx.map fun e => (e.1.id, e.2) := by
  induction people using List.reverseRec with
  | nil => rfl
  | append_singleton people p ih =>
    rw [List.map_append, List.nodup_append] at unique
    obtain ⟨unique, -, apart⟩ := unique
    have kept : (people.zipIdx.map fun e => (e.1.id, e.2)).filter
        (fun pair => pair.1 ≠ p.id ∧ pair.2 ≠ people.length) =
          people.zipIdx.map fun e => (e.1.id, e.2) := by
      refine List.filter_eq_self.2 fun pair member => ?_
      obtain ⟨⟨q, i⟩, hq, rfl⟩ := List.mem_map.1 member
      obtain ⟨lt, here⟩ := List.mem_zipIdx' hq
      have ne : q.id ≠ p.id :=
        apart _ (List.mem_map_of_mem (here ▸ List.getElem_mem lt)) _ (by simp)
      simp [ne, Nat.ne_of_lt lt]
    rw [ofPeople, List.zipIdx_append, List.foldl_append]
    change ((ofPeople people).insert p.id _).pairs = _
    rw [insert, ih unique, List.map_append]
    simpa using kept

theorem place?_ofPeople {people : List Profile} (unique : (people.map (·.id)).Nodup)
    (id : PersonId) : (ofPeople people).place? id = placeOf people id := by
  rw [place?, ofPeople_pairs unique, List.find?_map, Option.map_map, placeOf,
    List.findIdx?_eq_fst_find?_zipIdx]
  rfl

theorem id?_ofPeople {people : List Profile} (unique : (people.map (·.id)).Nodup) (i : Nat) :
    (ofPeople people).id? i = people[i]?.map (·.id) := by
  have only (e : Profile × Nat) (found : people.zipIdx.find? (·.2 = i) = some e) :
      people[i]? = some e.1 := by
    obtain rfl : e.2 = i := by simpa using List.find?_some found
    exact List.mem_zipIdx_iff_getElem?.1 (List.mem_of_find?_eq_some found)
  rw [id?, ofPeople_pairs unique, List.find?_map, Option.map_map]
  change (people.zipIdx.find? (·.2 = i)).map (·.1.id) = _
  cases found : people.zipIdx.find? (·.2 = i) with
  | some e => rw [only e found, Option.map_some, Option.map_some]
  | none =>
    cases here : people[i]? with
    | none => rfl
    | some p =>
      have member : (p, i) ∈ people.zipIdx := List.mem_zipIdx_iff_getElem?.2 here
      simpa using List.find?_eq_none.1 found _ member

end IdIndex

/-! ### Lists with at most one item -/

theorem getLast?_eq_some_iff_mem {α : Type} {l : List α} {a : α} (few : l.length ≤ 1) :
    l.getLast? = some a ↔ a ∈ l := by
  match l, few with
  | [], _ => simp
  | [b], _ => simp [eq_comm]

/-! ### Places and bonds -/

section
variable {people : List Profile} {i : Nat} {p : Profile}

theorem placeOf_eq_some_iff {id : PersonId} (unique : (people.map (·.id)).Nodup) :
    placeOf people id = some i ↔ ∃ p, people[i]? = some p ∧ p.id = id := by
  refine ⟨exists_of_placeOf, fun ⟨p, found, same⟩ => ?_⟩
  obtain ⟨lt, rfl⟩ := List.getElem?_eq_some_iff.1 found
  refine List.findIdx?_eq_some_iff_getElem.2 ⟨lt, by simpa using same, fun j before => ?_⟩
  have ne : people[j].id ≠ people[i].id := by
    have apart := List.pairwise_iff_getElem.1 unique j i
      (by simpa using Nat.lt_trans before lt) (by simpa using lt) before
    simpa using apart
  simpa [← same] using ne

theorem placeOf_of_getElem? (unique : (people.map (·.id)).Nodup) (found : people[i]? = some p) :
    placeOf people p.id = some i :=
  (placeOf_eq_some_iff unique).2 ⟨p, found, rfl⟩

namespace Bond
variable {bond : Bond}

theorem partnerOf_eq_some_iff (unique : (people.map (·.id)).Nodup) (found : people[i]? = some p)
    {j : Nat} {d : Date} :
    bond.partnerOf people i = some (j, d) ↔ ∃ q, people[j]? = some q ∧
      (bond = .marital p.id q.id d ∨ bond = .marital q.id p.id d) := by
  constructor
  · intro partner
    cases bond with
    | parental parent child => cases partner
    | marital first second wedding =>
      simp only [partnerOf] at partner
      split at partner
      · rename_i a b ha hb
        obtain ⟨q, hq, rfl⟩ := exists_of_placeOf ha
        obtain ⟨q', hq', rfl⟩ := exists_of_placeOf hb
        split at partner
        · rename_i here
          cases partner
          subst here
          obtain rfl := Option.some.inj (found.symm.trans hq')
          exact ⟨q, hq, .inr rfl⟩
        · split at partner
          · rename_i here
            cases partner
            subst here
            obtain rfl := Option.some.inj (found.symm.trans hq)
            exact ⟨q', hq', .inl rfl⟩
          · cases partner
      · cases partner
  · rintro ⟨q, hq, rfl | rfl⟩
    · have ha := placeOf_of_getElem? unique found
      have hb := placeOf_of_getElem? unique hq
      simp only [partnerOf, ha, hb]
      split <;> simp_all
    · have ha := placeOf_of_getElem? unique found
      have hb := placeOf_of_getElem? unique hq
      simp [partnerOf, ha, hb]

theorem childOf_eq_some_iff (unique : (people.map (·.id)).Nodup) (found : people[i]? = some p)
    {c : Nat} :
    bond.childOf people i = some c ↔ ∃ q, people[c]? = some q ∧ bond = .parental p.id q.id := by
  constructor
  · intro child
    cases bond with
    | marital first second wedding => cases child
    | parental parent c' =>
      simp only [childOf] at child
      split at child
      · rename_i a b ha hb
        obtain ⟨q, hq, rfl⟩ := exists_of_placeOf ha
        obtain ⟨q', hq', rfl⟩ := exists_of_placeOf hb
        split at child
        · rename_i here
          cases child
          subst here
          obtain rfl := Option.some.inj (found.symm.trans hq)
          exact ⟨q', hq', rfl⟩
        · cases child
      · cases child
  · rintro ⟨q, hq, rfl⟩
    simp [childOf, placeOf_of_getElem? unique found, placeOf_of_getElem? unique hq]

theorem parentOf_eq_some_iff (unique : (people.map (·.id)).Nodup) (found : people[i]? = some p)
    {sex : Sex} {k : Nat} :
    bond.parentOf people sex i = some k ↔
      ∃ q, people[k]? = some q ∧ q.sex = sex ∧ bond = .parental q.id p.id := by
  constructor
  · intro parent
    cases bond with
    | marital first second wedding => cases parent
    | parental parent' c =>
      simp only [parentOf] at parent
      split at parent
      · rename_i a b ha hb
        obtain ⟨q, hq, rfl⟩ := exists_of_placeOf ha
        obtain ⟨q', hq', rfl⟩ := exists_of_placeOf hb
        split at parent
        · rename_i here
          cases parent
          obtain ⟨rfl, sexes⟩ := here
          obtain rfl := Option.some.inj (found.symm.trans hq')
          exact ⟨q, hq, by simpa [hq] using sexes, rfl⟩
        · cases parent
      · cases parent
  · rintro ⟨q, hq, rfl, rfl⟩
    simp [parentOf, placeOf_of_getElem? unique found, placeOf_of_getElem? unique hq, hq]

end Bond
end

/-! ### The mirror -/

namespace Genealogy

/-- Whether a bond marries two persons on a date, whichever is named first. -/
def Married (g : Genealogy) (a b : PersonId) (wedding : Date) : Prop :=
  .marital a b wedding ∈ g.bonds ∨ .marital b a wedding ∈ g.bonds

/-- The children of a person, in the order of the bonds. -/
def childrenOf (g : Genealogy) (id : PersonId) : List PersonId :=
  g.bonds.filterMap fun
    | .parental parent child => if parent = id then some child else none
    | .marital .. => none

end Genealogy

namespace FamilyTree

/-- A tree that shows exactly the persons and bonds of a genealogy. -/
structure Mirrors (tree : FamilyTree) (g : Genealogy) : Prop where
  size : tree.size = g.people.length
  person : ∀ i, tree.person? i = g.people[i]?
  /-- The index of ids is the inverse of reading the id at a place. -/
  place : ∀ id i, tree.indexOf? id = some i ↔ (tree.person? i).map (·.id) = some id
  index : ∀ id i, (IdIndex.ofPeople g.people).place? id = tree.indexOf? id ∧
    (IdIndex.ofPeople g.people).id? i = (tree.person? i).map (·.id)
  range : ∀ i v, tree.vertex? i = some v → ∀ j ∈ v.neighbours, j < tree.size
  spouse : ∀ a b d, g.Married a b d ↔ ∃ i j v, tree.indexOf? a = some i ∧
    tree.indexOf? b = some j ∧ tree.vertex? i = some v ∧ v.spouse = some j ∧ v.wedding = some d
  bothWays : ∀ i j v w, tree.vertex? i = some v → tree.vertex? j = some w → v.spouse = some j →
    w.spouse = some i ∧ w.wedding = v.wedding
  wedding : ∀ i v, tree.vertex? i = some v → v.wedding.isSome = v.spouse.isSome
  children : ∀ i v, tree.vertex? i = some v →
    v.children.map (fun c => (tree.person? c).map (·.id)) = (g.childrenOf v.profile.id).map some
  distinct : ∀ i v, tree.vertex? i = some v → v.children.Nodup
  child : ∀ a b, .parental a b ∈ g.bonds ↔ ∃ i j v, tree.indexOf? a = some i ∧
    tree.indexOf? b = some j ∧ tree.vertex? i = some v ∧ j ∈ v.children
  father : ∀ i j v w, tree.vertex? i = some v → tree.vertex? j = some w →
    (w.father = some i ↔ v.profile.sex = .male ∧ j ∈ v.children)
  mother : ∀ i j v w, tree.vertex? i = some v → tree.vertex? j = some w →
    (w.mother = some i ↔ v.profile.sex = .female ∧ j ∈ v.children)

theorem Mirrors.indexOf?_of_person? {tree : FamilyTree} {g : Genealogy} (mirror : tree.Mirrors g)
    {i : Nat} {p : Profile} (hp : tree.person? i = some p) : tree.indexOf? p.id = some i := by
  rw [mirror.place, hp, Option.map_some]

end FamilyTree

namespace Genealogy.IsConsistent
variable {g : Genealogy} {i : Nat} {p : Profile}

theorem person?_of_getElem? (c : g.IsConsistent) (found : g.people[i]? = some p) :
    g.person? p.id = some p := by
  obtain ⟨lt, rfl⟩ := List.getElem?_eq_some_iff.1 found
  have known : (g.person? g.people[i].id).isSome :=
    person?_isSome_iff.2 ⟨_, List.getElem_mem lt, rfl⟩
  obtain ⟨q, hq⟩ := Option.isSome_iff_exists.1 known
  have same : q.id = g.people[i].id := by simpa using List.find?_some hq
  rw [hq, List.inj_on_of_nodup_map c.ids (List.mem_of_find?_eq_some hq) (List.getElem_mem lt) same]

theorem exists_place {id : PersonId} (known : (g.person? id).isSome) :
    ∃ (i : Nat) (p : Profile), g.people[i]? = some p ∧ p.id = id := by
  obtain ⟨p, member, same⟩ := person?_isSome_iff.1 known
  obtain ⟨i, found⟩ := List.mem_iff_getElem?.1 member
  exact ⟨i, p, found, same⟩

theorem bonds_nodup (c : g.IsConsistent) : g.bonds.Nodup := by
  refine List.nodup_iff_count_le_one.2 fun bond => ?_
  by_cases member : bond ∈ g.bonds
  · have joins := c.joins bond member
    cases bond with
    | marital first second wedding =>
      refine Nat.le_trans (List.countP_mono_left fun old _ same => ?_) (c.spouse first)
      obtain rfl : old = _ := by simpa using same
      simp [weds, Bond.isMarital, Bond.links]
    | parental parent child =>
      obtain ⟨p, hp⟩ := Option.isSome_iff_exists.1 joins.first
      refine Nat.le_trans (List.countP_mono_left fun old _ same => ?_) (c.parent p.sex child)
      obtain rfl : old = _ := by simpa using same
      simp [gives, show g.person? parent = some p from hp]
  · rw [List.count_eq_zero.2 member]
    exact Nat.zero_le 1

/-- Everyone is given at most one partner, and at most one parent of each sex. -/
theorem partners_le_one (c : g.IsConsistent) (found : g.people[i]? = some p) :
    (g.bonds.filterMap (·.partnerOf g.people i)).length ≤ 1 := by
  rw [List.length_filterMap_eq_countP]
  refine Nat.le_trans (List.countP_mono_left fun bond _ some => ?_) (c.spouse p.id)
  obtain ⟨⟨j, d⟩, partner⟩ := Option.isSome_iff_exists.1 some
  obtain ⟨q, -, rfl | rfl⟩ := (Bond.partnerOf_eq_some_iff c.ids found).1 partner <;>
    simp [weds, Bond.isMarital, Bond.links]

theorem parents_le_one (c : g.IsConsistent) (found : g.people[i]? = some p) (sex : Sex) :
    (g.bonds.filterMap (·.parentOf g.people sex i)).length ≤ 1 := by
  rw [List.length_filterMap_eq_countP]
  refine Nat.le_trans (List.countP_mono_left fun bond _ some => ?_) (c.parent sex p.id)
  obtain ⟨k, parent⟩ := Option.isSome_iff_exists.1 some
  obtain ⟨q, hq, rfl, rfl⟩ := (Bond.parentOf_eq_some_iff c.ids found).1 parent
  simp [gives, c.person?_of_getElem? hq]

theorem partner_iff (c : g.IsConsistent) (found : g.people[i]? = some p) {j : Nat} {d : Date} :
    (g.bonds.filterMap (·.partnerOf g.people i)).getLast? = some (j, d) ↔
      ∃ q, g.people[j]? = some q ∧ g.Married p.id q.id d := by
  rw [getLast?_eq_some_iff_mem (c.partners_le_one found), List.mem_filterMap]
  constructor
  · rintro ⟨bond, member, partner⟩
    obtain ⟨q, hq, rfl | rfl⟩ := (Bond.partnerOf_eq_some_iff c.ids found).1 partner
    · exact ⟨q, hq, .inl member⟩
    · exact ⟨q, hq, .inr member⟩
  · rintro ⟨q, hq, member | member⟩
    · exact ⟨_, member, (Bond.partnerOf_eq_some_iff c.ids found).2 ⟨q, hq, .inl rfl⟩⟩
    · exact ⟨_, member, (Bond.partnerOf_eq_some_iff c.ids found).2 ⟨q, hq, .inr rfl⟩⟩

theorem parent_iff (c : g.IsConsistent) (found : g.people[i]? = some p) {sex : Sex} {k : Nat} :
    (g.bonds.filterMap (·.parentOf g.people sex i)).getLast? = some k ↔
      ∃ q, g.people[k]? = some q ∧ q.sex = sex ∧ .parental q.id p.id ∈ g.bonds := by
  rw [getLast?_eq_some_iff_mem (c.parents_le_one found sex), List.mem_filterMap]
  constructor
  · rintro ⟨bond, member, parent⟩
    obtain ⟨q, hq, sexes, rfl⟩ := (Bond.parentOf_eq_some_iff c.ids found).1 parent
    exact ⟨q, hq, sexes, member⟩
  · rintro ⟨q, hq, sexes, member⟩
    exact ⟨_, member, (Bond.parentOf_eq_some_iff c.ids found).2 ⟨q, hq, sexes, rfl⟩⟩

theorem child_iff (c : g.IsConsistent) (found : g.people[i]? = some p) {k : Nat} :
    k ∈ g.bonds.filterMap (·.childOf g.people i) ↔
      ∃ q, g.people[k]? = some q ∧ .parental p.id q.id ∈ g.bonds := by
  rw [List.mem_filterMap]
  constructor
  · rintro ⟨bond, member, child⟩
    obtain ⟨q, hq, rfl⟩ := (Bond.childOf_eq_some_iff c.ids found).1 child
    exact ⟨q, hq, member⟩
  · rintro ⟨q, hq, member⟩
    exact ⟨_, member, (Bond.childOf_eq_some_iff c.ids found).2 ⟨q, hq, rfl⟩⟩

theorem children_nodup (c : g.IsConsistent) (found : g.people[i]? = some p) :
    (g.bonds.filterMap (·.childOf g.people i)).Nodup := by
  refine c.bonds_nodup.filterMap fun bond bond' k child child' => ?_
  obtain ⟨q, hq, rfl⟩ := (Bond.childOf_eq_some_iff c.ids found).1 child
  obtain ⟨q', hq', rfl⟩ := (Bond.childOf_eq_some_iff c.ids found).1 child'
  rw [Option.some.inj (hq.symm.trans hq')]

/-- The places of a person's children bear the ids that the bonds name, in their order. -/
theorem children_ids (c : g.IsConsistent) (found : g.people[i]? = some p) :
    (g.bonds.filterMap (·.childOf g.people i)).map (fun k => g.people[k]?.map (·.id)) =
      (g.childrenOf p.id).map some := by
  rw [childrenOf, List.map_filterMap, List.map_filterMap]
  refine List.filterMap_congr fun bond member => ?_
  cases bond with
  | marital first second wedding => rfl
  | parental parent child =>
    have joins := c.joins _ member
    obtain ⟨a, q, hq, rfl⟩ := exists_place joins.first
    obtain ⟨b, r, hr, rfl⟩ := exists_place joins.second
    have ha := placeOf_of_getElem? c.ids hq
    by_cases here : q.id = p.id
    · rw [here, placeOf_of_getElem? c.ids found] at ha
      obtain rfl := Option.some.inj ha
      simp [Bond.childOf, placeOf_of_getElem? c.ids hr, here, placeOf_of_getElem? c.ids found, hr]
    · have ne : a ≠ i := by
        rintro rfl
        exact here (by rw [Option.some.inj (hq.symm.trans found)])
      simp [Bond.childOf, placeOf_of_getElem? c.ids hr, ha, ne, here]

/-! ### Each vertex of the tree -/

theorem exists_drawn {v : Vertex} (hv : (FamilyTree.build g.people g.bonds).vertex? i = some v) :
    ∃ p, g.people[i]? = some p ∧ v = .drawn g.people g.bonds i p := by
  rw [(FamilyTree.build_spec g.people g.bonds).2, Option.map_eq_some_iff] at hv
  obtain ⟨p, hp, rfl⟩ := hv
  exact ⟨p, hp, rfl⟩

theorem drawn_married_iff (c : g.IsConsistent) (found : g.people[i]? = some p) {j : Nat} {d : Date} :
    (Vertex.drawn g.people g.bonds i p).spouse = some j ∧
      (Vertex.drawn g.people g.bonds i p).wedding = some d ↔
        ∃ q, g.people[j]? = some q ∧ g.Married p.id q.id d := by
  rw [← c.partner_iff found, Vertex.drawn]
  cases (g.bonds.filterMap (·.partnerOf g.people i)).getLast? with
  | none => simp
  | some partner => simp [Prod.ext_iff]

theorem drawn_father_iff (c : g.IsConsistent) (found : g.people[i]? = some p) {k : Nat} :
    (Vertex.drawn g.people g.bonds i p).father = some k ↔
      ∃ q, g.people[k]? = some q ∧ q.sex = .male ∧ .parental q.id p.id ∈ g.bonds :=
  c.parent_iff found

theorem drawn_mother_iff (c : g.IsConsistent) (found : g.people[i]? = some p) {k : Nat} :
    (Vertex.drawn g.people g.bonds i p).mother = some k ↔
      ∃ q, g.people[k]? = some q ∧ q.sex = .female ∧ .parental q.id p.id ∈ g.bonds :=
  c.parent_iff found

theorem drawn_wedding_isSome (people : List Profile) (bonds : List Bond) :
    (Vertex.drawn people bonds i p).wedding.isSome =
      (Vertex.drawn people bonds i p).spouse.isSome := by
  simp only [Vertex.drawn, Option.isSome_map]

/-- A spouse is shown with a wedding, and so comes from a bond. -/
theorem married_of_drawn_spouse (c : g.IsConsistent) (found : g.people[i]? = some p) {j : Nat}
    (spouse : (Vertex.drawn g.people g.bonds i p).spouse = some j) :
    ∃ d, (Vertex.drawn g.people g.bonds i p).wedding = some d ∧
      ∃ q, g.people[j]? = some q ∧ g.Married p.id q.id d := by
  have wed : (Vertex.drawn g.people g.bonds i p).wedding.isSome := by
    rw [drawn_wedding_isSome, spouse]
    rfl
  obtain ⟨d, hd⟩ := Option.isSome_iff_exists.1 wed
  exact ⟨d, hd, (c.drawn_married_iff found).1 ⟨spouse, hd⟩⟩

theorem Married.known (c : g.IsConsistent) {a b : PersonId} {d : Date} (married : g.Married a b d) :
    (g.person? a).isSome ∧ (g.person? b).isSome := by
  rcases married with member | member
  · exact ⟨(c.joins _ member).first, (c.joins _ member).second⟩
  · exact ⟨(c.joins _ member).second, (c.joins _ member).first⟩

/-- Every place that a vertex names holds a person. -/
theorem drawn_neighbours (c : g.IsConsistent) (found : g.people[i]? = some p) {j : Nat}
    (near : j ∈ (Vertex.drawn g.people g.bonds i p).neighbours) : ∃ q, g.people[j]? = some q := by
  simp only [Vertex.neighbours, List.mem_append, Option.mem_toList] at near
  rcases near with ((father | mother) | spouse) | child
  · obtain ⟨q, hq, -⟩ := (c.drawn_father_iff found).1 father
    exact ⟨q, hq⟩
  · obtain ⟨q, hq, -⟩ := (c.drawn_mother_iff found).1 mother
    exact ⟨q, hq⟩
  · obtain ⟨-, -, q, hq, -⟩ := c.married_of_drawn_spouse found spouse
    exact ⟨q, hq⟩
  · obtain ⟨q, hq, -⟩ := (c.child_iff found).1 child
    exact ⟨q, hq⟩

/-- The two ends of a parental bond show each other. -/
theorem parent_child_iff (c : g.IsConsistent) {j : Nat} {q : Profile}
    (hp : g.people[i]? = some p) (hq : g.people[j]? = some q) (sex : Sex) :
    (∃ r, g.people[i]? = some r ∧ r.sex = sex ∧ .parental r.id q.id ∈ g.bonds) ↔
      p.sex = sex ∧ j ∈ (Vertex.drawn g.people g.bonds i p).children := by
  have child : j ∈ (Vertex.drawn g.people g.bonds i p).children ↔ _ := c.child_iff hp
  rw [child]
  constructor
  · rintro ⟨r, hr, sexes, member⟩
    obtain rfl := Option.some.inj (hp.symm.trans hr)
    exact ⟨sexes, q, hq, member⟩
  · rintro ⟨sexes, r, hr, member⟩
    obtain rfl := Option.some.inj (hq.symm.trans hr)
    exact ⟨p, hp, sexes, member⟩

/-- A tree has an id at the place of the person. -/
theorem indexOf?_build (c : g.IsConsistent) {id : PersonId} :
    (FamilyTree.build g.people g.bonds).indexOf? id = some i ↔
      ∃ p, g.people[i]? = some p ∧ p.id = id := by
  rw [(FamilyTree.build_spec g.people g.bonds).1.indexOf?]
  exact placeOf_eq_some_iff c.ids

theorem vertex?_build (found : g.people[i]? = some p) :
    (FamilyTree.build g.people g.bonds).vertex? i = some (.drawn g.people g.bonds i p) := by
  rw [(FamilyTree.build_spec g.people g.bonds).2, found, Option.map_some]

/-- A relation of persons who are in the genealogy is what the vertex of the one shows of the
place of the other, if this holds of every vertex. -/
theorem related_iff_shown (c : g.IsConsistent) {related : PersonId → PersonId → Prop}
    {shows : Vertex → Nat → Prop}
    (known : ∀ {a b}, related a b → (g.person? a).isSome ∧ (g.person? b).isSome)
    (drawn : ∀ {i p j}, g.people[i]? = some p → (shows (.drawn g.people g.bonds i p) j ↔
      ∃ q, g.people[j]? = some q ∧ related p.id q.id)) (a b : PersonId) :
    related a b ↔ ∃ i j v, (FamilyTree.build g.people g.bonds).indexOf? a = some i ∧
      (FamilyTree.build g.people g.bonds).indexOf? b = some j ∧
      (FamilyTree.build g.people g.bonds).vertex? i = some v ∧ shows v j := by
  constructor
  · intro here
    obtain ⟨i, p, hp, rfl⟩ := exists_place (known here).1
    obtain ⟨j, q, hq, rfl⟩ := exists_place (known here).2
    exact ⟨i, j, _, c.indexOf?_build.2 ⟨p, hp, rfl⟩, c.indexOf?_build.2 ⟨q, hq, rfl⟩,
      vertex?_build hp, (drawn hp).2 ⟨q, hq, here⟩⟩
  · rintro ⟨i, j, v, ha, hb, hv, shown⟩
    obtain ⟨p, hp, rfl⟩ := c.indexOf?_build.1 ha
    obtain ⟨q, hq, rfl⟩ := c.indexOf?_build.1 hb
    obtain rfl := Option.some.inj (hv.symm.trans (vertex?_build hp))
    obtain ⟨q', hq', here⟩ := (drawn hp).1 shown
    obtain rfl := Option.some.inj (hq.symm.trans hq')
    exact here

/-- The family tree of a consistent genealogy mirrors it. -/
theorem mirrors (c : g.IsConsistent) : (FamilyTree.build g.people g.bonds).Mirrors g := by
  have seats := (FamilyTree.build_spec g.people g.bonds).1
  have size : (FamilyTree.build g.people g.bonds).size = g.people.length := by
    have lengths := congrArg List.length seats
    rwa [List.length_map] at lengths
  constructor
  case size => exact size
  case person => exact seats.person?
  case place =>
    intro id i
    rw [c.indexOf?_build, seats.person?, Option.map_eq_some_iff]
  case index =>
    intro id i
    rw [seats.indexOf?, seats.person?]
    exact ⟨IdIndex.place?_ofPeople c.ids id, IdIndex.id?_ofPeople c.ids i⟩
  case range =>
    intro i v hv j near
    obtain ⟨p, hp, rfl⟩ := exists_drawn hv
    obtain ⟨q, hq⟩ := c.drawn_neighbours hp near
    rw [size]
    exact (List.getElem?_eq_some_iff.1 hq).1
  case spouse =>
    intro a b d
    exact c.related_iff_shown (Married.known c) (fun hp => c.drawn_married_iff hp) a b
  case bothWays =>
    intro i j v w hv hw spouse
    obtain ⟨p, hp, rfl⟩ := exists_drawn hv
    obtain ⟨q, hq, rfl⟩ := exists_drawn hw
    obtain ⟨d, wed, q', hq', married⟩ := c.married_of_drawn_spouse hp spouse
    obtain rfl := Option.some.inj (hq.symm.trans hq')
    obtain ⟨back, wed'⟩ := (c.drawn_married_iff hq).2 ⟨p, hp, Or.symm married⟩
    exact ⟨back, wed'.trans wed.symm⟩
  case wedding =>
    intro i v hv
    obtain ⟨p, hp, rfl⟩ := exists_drawn hv
    exact drawn_wedding_isSome g.people g.bonds
  case children =>
    intro i v hv
    obtain ⟨p, hp, rfl⟩ := exists_drawn hv
    simp only [seats.person?]
    exact c.children_ids hp
  case distinct =>
    intro i v hv
    obtain ⟨p, hp, rfl⟩ := exists_drawn hv
    exact c.children_nodup hp
  case child =>
    intro a b
    have known {a b : PersonId} (member : .parental a b ∈ g.bonds) :
        (g.person? a).isSome ∧ (g.person? b).isSome :=
      ⟨(c.joins (.parental a b) member).first, (c.joins (.parental a b) member).second⟩
    exact c.related_iff_shown known (fun hp => c.child_iff hp) a b
  case father =>
    intro i j v w hv hw
    obtain ⟨p, hp, rfl⟩ := exists_drawn hv
    obtain ⟨q, hq, rfl⟩ := exists_drawn hw
    exact (c.drawn_father_iff hq).trans (c.parent_child_iff hp hq .male)
  case mother =>
    intro i j v w hv hw
    obtain ⟨p, hp, rfl⟩ := exists_drawn hv
    obtain ⟨q, hq, rfl⟩ := exists_drawn hw
    exact (c.drawn_mother_iff hq).trans (c.parent_child_iff hp hq .female)

end Genealogy.IsConsistent

theorem Genealogy.Reachable.mirrors {g : Genealogy} (reached : g.Reachable) :
    g.tree.1.Mirrors g := by
  rw [reached.tree_eq]
  exact reached.isConsistent.mirrors

/-- Whatever edits are tried on a genealogy, it stays consistent, and its family tree shows
exactly its persons and bonds. -/
theorem Genealogy.Reachable.consistent_mirrored {g : Genealogy} (reached : g.Reachable) :
    g.IsConsistent ∧ (FamilyTree.build g.people g.bonds).Mirrors g :=
  ⟨reached.isConsistent, reached.isConsistent.mirrors⟩

/-- Ann and Bob, who are married, and their daughter Cyd. -/
def Genealogy.threesome : Genealogy :=
  let day : Date := ⟨1950, 1, 2, by decide, by decide, by decide, by decide⟩
  { people :=
      [{ id := 1, firstName := "Ann", lastName := "Lee", sex := .female, birth := day },
        { id := 2, firstName := "Bob", lastName := "Lee", sex := .male, birth := day },
        { id := 3, firstName := "Cyd", lastName := "Lee", sex := .female, birth := day }]
    bonds := [.marital 1 2 day, .parental 1 3, .parental 2 3] }

theorem Genealogy.threesome_accepted :
    Genealogy.make threesome.people threesome.bonds = .ok threesome := by
  cbv

/-- A second father is refused, and Ann is removed with her bonds. -/
theorem Genealogy.Reachable.consistent_mirrored_removed :
    ∃ g : Genealogy, g.Reachable ∧ g.people.length = 2 ∧ g.bonds = [.parental 2 3] ∧
      g.IsConsistent ∧ (FamilyTree.build g.people g.bonds).Mirrors g := by
  let refused := Genealogy.threesome.attempt (.addParentage 2 3)
  have reached : (refused.attempt (.removePerson 1)).Reachable :=
    .attempt _ (.attempt _ (.make Genealogy.threesome_accepted))
  exact ⟨_, reached, by rfl, by rfl, consistent_mirrored reached⟩

end KinQuery
