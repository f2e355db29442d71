import KinQuery.Proofs.Family.Accepted

/-! A genealogy stays consistent whatever edits are tried on it.

Consistency is one conjunction: the checks of each edit rest on what the others keep, such as
that both persons of every bond exist. Each edit keeps it, a refused edit changes nothing, and
so it holds of every genealogy that can be reached. -/
namespace KinQuery

namespace Bond

/-- The two persons of a bond. -/
def ends : Bond → PersonId × PersonId
  | .marital first second _ => (first, second)
  | .parental parent child => (parent, child)

theorem links_iff {id : PersonId} {bond : Bond} :
    bond.links id = true ↔ bond.ends.1 = id ∨ bond.ends.2 = id := by
  cases bond <;> simp [links, ends]

end Bond

/-- An edit of a genealogy with its arguments. -/
inductive Edit where
  | addPerson (profile : Profile)
  | removePerson (id : PersonId)
  | marry (first second : PersonId) (wedding : Date)
  | divorce (first second : PersonId)
  | addParentage (parent child : PersonId)
  | removeParentage (parent child : PersonId)

namespace Genealogy
variable {g h : Genealogy} {edit : Edit}

def edited (g : Genealogy) : Edit → Except Failure Genealogy
  | .addPerson profile => g.addPerson profile
  | .removePerson id => g.removePerson id
  | .marry first second wedding => g.marry first second wedding
  | .divorce first second => g.divorce first second
  | .addParentage parent child => g.addParentage parent child
  | .removeParentage parent child => g.removeParentage parent child

/-- The genealogy after an edit was tried: one that is refused leaves it as it was. -/
def attempt (g : Genealogy) (edit : Edit) : Genealogy :=
  match g.edited edit with
  | .ok h => h
  | .error _ => g

/-- The genealogies that come from an accepted one by edits, some of which may be refused, and
by asking for the family tree in between. -/
inductive Reachable : Genealogy → Prop
  | make {people : List Profile} {bonds : List Bond} {g : Genealogy}
      (accepted : Genealogy.make people bonds = .ok g) : Reachable g
  | attempt {g : Genealogy} (edit : Edit) (reached : Reachable g) : Reachable (g.attempt edit)
  | tree {g : Genealogy} (reached : Reachable g) : Reachable g.tree.2

/-- Whether a bond gives `child` a parent of this sex. -/
def gives (g : Genealogy) (sex : Sex) (child : PersonId) : Bond → Bool
  | .parental p c => c = child && (g.person? p).map (·.sex) = some sex
  | .marital .. => false

/-- Whether a bond marries the person to anyone. -/
def weds (id : PersonId) (bond : Bond) : Bool :=
  bond.isMarital && bond.links id

/-- Two different persons, both of the genealogy. -/
structure Joins (g : Genealogy) (ends : PersonId × PersonId) : Prop where
  ne : ends.1 ≠ ends.2
  first : (g.person? ends.1).isSome
  second : (g.person? ends.2).isSome

theorem person?_congr (same : h.people = g.people) (id : PersonId) : h.person? id = g.person? id := by
  rw [person?, person?, same]

theorem Joins.of_people {ends : PersonId × PersonId} (joins : g.Joins ends)
    (same : h.people = g.people) : h.Joins ends := by
  exact ⟨joins.ne, person?_congr same _ ▸ joins.first, person?_congr same _ ▸ joins.second⟩

structure IsConsistent (g : Genealogy) : Prop where
  ids : (g.people.map (·.id)).Nodup
  joins : ∀ bond ∈ g.bonds, g.Joins bond.ends
  spouse : ∀ id, g.bonds.countP (weds id) ≤ 1
  parent : ∀ sex child, g.bonds.countP (g.gives sex child) ≤ 1
  free : ∀ p ∈ g.people, ∀ field ∈ p.texts, Text.quote ∉ field.2.toList

/-! ### Looking persons up -/

theorem person?_isSome_iff {id : PersonId} :
    (g.person? id).isSome ↔ ∃ p ∈ g.people, p.id = id := by
  simp [person?]

theorem require_eq_ok {id : PersonId} {p : Profile} (ok : g.require id = .ok p) :
    g.person? id = some p := by
  unfold require at ok
  split at ok
  · cases ok
    assumption
  · cases ok

/-- What a computation does that first looks a person up, once it succeeds. -/
theorem required {α : Type} {id : PersonId} {f : Profile → Except Failure α} {a : α}
    (ok : (g.require id >>= f) = .ok a) : ∃ p, g.person? id = some p ∧ f p = .ok a := by
  cases hp : g.require id with
  | error failure =>
    rw [hp] at ok
    cases ok
  | ok p =>
    rw [hp] at ok
    exact ⟨p, require_eq_ok hp, ok⟩

/-! ### What each edit does once it is accepted -/

theorem removePerson_eq_ok {id : PersonId} (ok : g.removePerson id = .ok h) :
    h = { people := g.people.filter (·.id ≠ id), bonds := g.bonds.filter fun b => !b.links id } := by
  obtain ⟨-, -, ok⟩ := required ok
  exact (Except.ok.inj ok).symm

theorem marry_eq_ok {first second : PersonId} {wedding : Date}
    (ok : g.marry first second wedding = .ok h) :
    h = g.withBonds (g.bonds ++ [.marital first second wedding]) ∧ g.Joins (first, second) ∧
      ¬ g.isMarried first ∧ ¬ g.isMarried second := by
  obtain ⟨p, hp, ok⟩ := required ok
  obtain ⟨q, hq, ok⟩ := required ok
  split at ok
  · cases ok
  · rename_i ne
    split at ok
    · cases ok
    · rename_i unmarried
      rw [List.find?_eq_none] at unmarried
      exact ⟨(Except.ok.inj ok).symm, ⟨ne, by simp [hp], by simp [hq]⟩,
        unmarried first (by simp), unmarried second (by simp)⟩

theorem divorce_eq_ok {first second : PersonId} (ok : g.divorce first second = .ok h) :
    h = g.withBonds (g.bonds.filter fun bond => !bond.marries first second) := by
  simp only [divorce] at ok
  split at ok
  · cases ok
  · exact (Except.ok.inj ok).symm

theorem addParentage_eq_ok {parent child : PersonId} (ok : g.addParentage parent child = .ok h) :
    h = g.withBonds (g.bonds ++ [.parental parent child]) ∧ g.Joins (parent, child) ∧
      ∃ p, g.person? parent = some p ∧
        ∀ bond ∈ g.bonds, ¬ g.givesParent parent p.sex child bond := by
  obtain ⟨p, hp, ok⟩ := required ok
  obtain ⟨q, hq, ok⟩ := required ok
  split at ok
  · cases ok
  · rename_i ne
    split at ok
    · cases ok
    · rename_i orphan
      refine ⟨(Except.ok.inj ok).symm, ⟨ne, by simp [hp], by simp [hq]⟩, p, hp, ?_⟩
      intro bond hb gives
      exact orphan (List.any_eq_true.2 ⟨bond, hb, gives⟩)

theorem removeParentage_eq_ok {parent child : PersonId}
    (ok : g.removeParentage parent child = .ok h) :
    h = g.withBonds (g.bonds.filter (· ≠ .parental parent child)) := by
  simp only [removeParentage] at ok
  split at ok
  · cases ok
  · exact (Except.ok.inj ok).symm

/-! ### One edit -/

namespace IsConsistent

theorem empty : Genealogy.empty.IsConsistent where
  ids := by simp [Genealogy.empty]
  joins := by simp [Genealogy.empty]
  spouse := by simp [Genealogy.empty]
  parent := by simp [Genealogy.empty]
  free := by simp [Genealogy.empty]

/-- Bonds may be dropped. -/
theorem withBonds {bonds : List Bond} (c : g.IsConsistent) (fewer : bonds.Sublist g.bonds) :
    (g.withBonds bonds).IsConsistent where
  ids := c.ids
  joins bond member := (c.joins bond (fewer.subset member)).of_people rfl
  spouse id := Nat.le_trans fewer.countP_le (c.spouse id)
  parent sex child := Nat.le_trans fewer.countP_le (c.parent sex child)
  free := c.free

/-- A bond may be added where it leaves each person with one marriage and each child with one
father and one mother. -/
theorem addBond {bond : Bond} (c : g.IsConsistent) (joins : g.Joins bond.ends)
    (spouse : ∀ id, weds id bond → ∀ old ∈ g.bonds, ¬ weds id old)
    (parent : ∀ sex child, g.gives sex child bond → ∀ old ∈ g.bonds, ¬ g.gives sex child old) :
    (g.withBonds (g.bonds ++ [bond])).IsConsistent := by
  have once (p : Bond → Bool) (few : g.bonds.countP p ≤ 1)
      (none : p bond → ∀ old ∈ g.bonds, ¬ p old) : (g.bonds ++ [bond]).countP p ≤ 1 := by
    rw [List.countP_append]
    by_cases new : p bond
    · rw [List.countP_eq_zero.2 (none new)]
      simp [new]
    · simpa [List.countP_cons, new] using few
  refine ⟨c.ids, fun old member => ?_, fun id => once _ (c.spouse id) (spouse id),
    fun sex child => once _ (c.parent sex child) (parent sex child), c.free⟩
  rcases List.mem_append.1 member with member | member
  · exact (c.joins old member).of_people rfl
  · obtain rfl := List.mem_singleton.1 member
    exact joins.of_people rfl

theorem marry {first second : PersonId} {wedding : Date} (c : g.IsConsistent)
    (ok : g.marry first second wedding = .ok h) : h.IsConsistent := by
  obtain ⟨rfl, joins, single, single'⟩ := marry_eq_ok ok
  refine c.addBond joins (fun id new old member wed => ?_) fun _ _ gives => by cases gives
  have married : g.isMarried id := List.any_eq_true.2 ⟨old, member, wed⟩
  have here : first = id ∨ second = id := by simpa [weds, Bond.isMarital, Bond.links] using new
  rcases here with rfl | rfl
  · exact single married
  · exact single' married

theorem addParentage {parent child : PersonId} (c : g.IsConsistent)
    (ok : g.addParentage parent child = .ok h) : h.IsConsistent := by
  obtain ⟨rfl, joins, p, hp, orphan⟩ := addParentage_eq_ok ok
  refine c.addBond joins (fun id new => by cases new) fun sex c' new old member gives => ?_
  simp only [Genealogy.gives, hp, Option.map_some, Option.some.injEq, Bool.and_eq_true,
    decide_eq_true_eq] at new
  obtain ⟨rfl, rfl⟩ := new
  refine orphan old member ?_
  cases old with
  | marital first second wedding => cases gives
  | parental p' c' =>
    simp only [Genealogy.gives, Bool.and_eq_true, decide_eq_true_eq] at gives
    simp [givesParent, gives]

/-- The parents of the bonds that remain are found as before. -/
theorem gives_congr {bonds : List Bond} {sex : Sex} {child : PersonId}
    (same : ∀ bond ∈ bonds, h.person? bond.ends.1 = g.person? bond.ends.1) :
    bonds.countP (h.gives sex child) = bonds.countP (g.gives sex child) := by
  refine List.countP_congr fun bond member => ?_
  cases bond with
  | marital first second wedding => simp [Genealogy.gives]
  | parental p c' =>
    have found : h.person? p = g.person? p := same _ member
    simp [Genealogy.gives, found]

theorem addPerson {p : Profile} (c : g.IsConsistent) (ok : g.addPerson p = .ok h) :
    h.IsConsistent := by
  obtain ⟨rfl, fresh, free⟩ := addPerson_eq_ok ok
  have found {id : PersonId} (some : (g.person? id).isSome) :
      person? { people := g.people ++ [p], bonds := g.bonds } id = g.person? id := by
    obtain ⟨q, hq⟩ := Option.isSome_iff_exists.1 some
    rw [hq]
    simp only [person?, List.find?_append]
    rw [show g.people.find? (·.id = id) = Option.some q from hq]
    rfl
  constructor
  case ids =>
    rw [List.map_append, List.nodup_append]
    refine ⟨c.ids, by simp, fun id old id' new => ?_⟩
    obtain ⟨q, hq, rfl⟩ := List.mem_map.1 old
    simp only [List.map_cons, List.map_nil, List.mem_singleton] at new
    exact new ▸ fresh q hq
  case joins =>
    intro bond member
    have joins := c.joins bond member
    exact ⟨joins.ne, by rw [found joins.first]; exact joins.first,
      by rw [found joins.second]; exact joins.second⟩
  case spouse => exact c.spouse
  case parent =>
    intro sex child
    rw [gives_congr fun bond member => found (c.joins bond member).first]
    exact c.parent sex child
  case free =>
    intro q hq
    rcases List.mem_append.1 hq with hq | hq
    · exact c.free q hq
    · obtain rfl := List.mem_singleton.1 hq
      exact free

theorem removePerson {id : PersonId} (c : g.IsConsistent) (ok : g.removePerson id = .ok h) :
    h.IsConsistent := by
  obtain rfl := removePerson_eq_ok ok
  set bonds := g.bonds.filter fun b => !b.links id with remaining
  have fewer : bonds.Sublist g.bonds := List.filter_sublist
  have found {other : PersonId} (ne : other ≠ id) :
      person? { people := g.people.filter (·.id ≠ id), bonds } other = g.person? other := by
    simp only [person?, List.find?_filter]
    congr 1
    funext q
    by_cases here : q.id = other
    · simp [here, ne]
    · simp [here]
  have apart {bond : Bond} (member : bond ∈ bonds) : bond.ends.1 ≠ id ∧ bond.ends.2 ≠ id := by
    have unlinked : ¬ bond.links id := by simpa using (List.mem_filter.1 member).2
    rw [Bond.links_iff, not_or] at unlinked
    exact unlinked
  constructor
  case ids => exact (List.filter_sublist.map _).nodup c.ids
  case joins =>
    intro bond member
    have joins := c.joins bond (fewer.subset member)
    obtain ⟨ne, ne'⟩ := apart member
    exact ⟨joins.ne, by rw [found ne]; exact joins.first, by rw [found ne']; exact joins.second⟩
  case spouse => exact fun id => Nat.le_trans fewer.countP_le (c.spouse id)
  case parent =>
    intro sex child
    rw [gives_congr fun bond member => found (apart member).1]
    exact Nat.le_trans fewer.countP_le (c.parent sex child)
  case free => exact fun p hp => c.free p (List.mem_of_mem_filter hp)

/-- Every edit that is accepted keeps a genealogy consistent. -/
theorem edited (c : g.IsConsistent) (ok : g.edited edit = .ok h) : h.IsConsistent := by
  cases edit with
  | addPerson profile => exact c.addPerson ok
  | removePerson id => exact c.removePerson ok
  | marry first second wedding => exact c.marry ok
  | divorce first second =>
    obtain rfl := divorce_eq_ok ok
    exact c.withBonds List.filter_sublist
  | addParentage parent child => exact c.addParentage ok
  | removeParentage parent child =>
    obtain rfl := removeParentage_eq_ok ok
    exact c.withBonds List.filter_sublist

theorem attempt (c : g.IsConsistent) (edit : Edit) : (g.attempt edit).IsConsistent := by
  unfold Genealogy.attempt
  split
  · exact c.edited ‹_›
  · exact c

/-! ### Many edits -/

/-- Adding persons, or bonds, one by one is trying as many edits, all accepted. -/
theorem foldlM {α : Type} {add : Genealogy → α → Except Failure Genealogy} {added : List α}
    (step : ∀ {g h : Genealogy} {a : α}, g.IsConsistent → add g a = .ok h → h.IsConsistent)
    (c : g.IsConsistent) (ok : added.foldlM add g = .ok h) : h.IsConsistent := by
  induction added generalizing g with
  | nil =>
    cases ok
    exact c
  | cons a added ih =>
    rw [List.foldlM_cons] at ok
    cases first : add g a with
    | error failure =>
      rw [first] at ok
      cases ok
    | ok e =>
      rw [first] at ok
      exact ih (step c first) ok

theorem make {people : List Profile} {bonds : List Bond} (ok : make people bonds = .ok g) :
    g.IsConsistent := by
  unfold Genealogy.make at ok
  cases first : people.foldlM Genealogy.addPerson Genealogy.empty with
  | error failure =>
    rw [first] at ok
    cases ok
  | ok e =>
    rw [first] at ok
    refine foldlM (fun {g h bond} c added => ?_) (foldlM addPerson empty first) ok
    cases bond with
    | marital first second wedding => exact c.marry added
    | parental parent child => exact c.addParentage added

theorem tree (c : g.IsConsistent) : g.tree.2.IsConsistent := by
  have same : g.tree.2.people = g.people ∧ g.tree.2.bonds = g.bonds := by
    unfold Genealogy.tree
    split <;> exact ⟨rfl, rfl⟩
  obtain ⟨people, bonds⟩ := same
  constructor
  case ids => exact people ▸ c.ids
  case joins => exact fun bond member => (c.joins bond (bonds ▸ member)).of_people people
  case spouse => exact bonds ▸ c.spouse
  case parent =>
    intro sex child
    rw [bonds, gives_congr fun bond _ => person?_congr people bond.ends.1]
    exact c.parent sex child
  case free => exact people ▸ c.free

end IsConsistent

/-- An edit that is accepted drops the tree. -/
theorem edited_tree? (ok : g.edited edit = .ok h) : h.tree? = none := by
  cases edit with
  | addPerson profile => rw [(addPerson_eq_ok ok).1]
  | removePerson id => rw [removePerson_eq_ok ok]
  | marry first second wedding => rw [(marry_eq_ok ok).1, withBonds]
  | divorce first second => rw [divorce_eq_ok ok, withBonds]
  | addParentage parent child => rw [(addParentage_eq_ok ok).1, withBonds]
  | removeParentage parent child => rw [removeParentage_eq_ok ok, withBonds]

namespace Reachable

/-- The tree that a genealogy remembers is that of its persons and bonds. -/
theorem tree? (reached : g.Reachable) {tree : FamilyTree} (known : g.tree? = some tree) :
    tree = .build g.people g.bonds := by
  induction reached with
  | make accepted =>
    rw [(make_eq_ok accepted).1.tree?] at known
    cases known
  | @attempt g edit _ ih =>
    unfold Genealogy.attempt at known ⊢
    split at known
    · rename_i ok
      rw [edited_tree? ok] at known
      cases known
    · exact ih known
  | @tree g _ ih =>
    unfold Genealogy.tree at known ⊢
    split at known
    · exact ih known
    · exact (Option.some.inj known).symm

theorem tree_eq (reached : g.Reachable) : g.tree.1 = .build g.people g.bonds := by
  unfold Genealogy.tree
  split
  · exact reached.tree? ‹_›
  · rfl

theorem isConsistent (reached : g.Reachable) : g.IsConsistent := by
  induction reached with
  | make accepted => exact .make accepted
  | attempt edit _ ih => exact ih.attempt edit
  | tree _ ih => exact ih.tree

end Reachable

end Genealogy
end KinQuery
