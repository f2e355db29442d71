import KinQuery.Proofs.Family.Mirror

/-! A genealogy is rebuilt from its snapshot.

The snapshot replays persons and bonds in the order in which they are stored, which is not how
the genealogy came about. Every check passes all the same, as a check looks for one person or
one bond that stands against another: in a consistent genealogy there is none, and so there is
none among the first few of its persons and bonds. -/
namespace KinQuery
namespace Genealogy
variable {g : Genealogy}

/-! ### One check -/

theorem require_of_isSome {id : PersonId} (known : (g.person? id).isSome) :
    ∃ p, g.person? id = some p ∧ g.require id = .ok p := by
  obtain ⟨p, hp⟩ := Option.isSome_iff_exists.1 known
  exact ⟨p, hp, by rw [require, hp]⟩

theorem addPerson_of_fresh {p : Profile} (fresh : ∀ q ∈ g.people, q.id ≠ p.id)
    (free : ∀ field ∈ p.texts, Text.quote ∉ field.2.toList) :
    g.addPerson p = .ok { people := g.people ++ [p], bonds := g.bonds } := by
  have unknown : (g.person? p.id).isSome = false := by
    rw [Bool.eq_false_iff]
    intro known
    obtain ⟨q, hq, same⟩ := person?_isSome_iff.1 known
    exact fresh q hq same
  unfold addPerson
  rw [unknown, if_neg (by decide)]
  split
  · rename_i found
    have quoted := List.find?_some found
    exact absurd (by simpa using quoted) (free _ (List.mem_of_find?_eq_some found))
  · rfl

theorem marry_of_joins {first second : PersonId} {wedding : Date}
    (joins : g.Joins (first, second))
    (single : ∀ id, first = id ∨ second = id → ∀ bond ∈ g.bonds, ¬ weds id bond) :
    g.marry first second wedding =
      .ok (g.withBonds (g.bonds ++ [.marital first second wedding])) := by
  obtain ⟨p, -, found⟩ := require_of_isSome joins.first
  obtain ⟨q, -, found'⟩ := require_of_isSome joins.second
  have unmarried (id : PersonId) (here : first = id ∨ second = id) : g.isMarried id = false := by
    rw [isMarried, List.any_eq_false]
    exact single id here
  have none : [first, second].find? g.isMarried = none := by
    simp [unmarried first (.inl rfl), unmarried second (.inr rfl)]
  have ne : first ≠ second := joins.ne
  rw [marry, found, found']
  simp [bind, Except.bind, ne, none]

/-- A bond that gives the child this parent, or one of the same sex, gives a parent of that sex. -/
theorem gives_of_givesParent {parent child : PersonId} {p : Profile} {bond : Bond}
    (hp : g.person? parent = some p) (gives : g.givesParent parent p.sex child bond) :
    g.gives p.sex child bond := by
  cases bond with
  | marital first second wedding => cases gives
  | parental p' c' =>
    simp only [givesParent, Bool.and_eq_true, decide_eq_true_eq, Bool.or_eq_true] at gives
    obtain ⟨rfl, rfl | same⟩ := gives
    · simp [Genealogy.gives, hp]
    · simp [Genealogy.gives, same]

theorem addParentage_of_joins {parent child : PersonId} (joins : g.Joins (parent, child))
    (orphan : ∀ sex, g.gives sex child (.parental parent child) →
      ∀ bond ∈ g.bonds, ¬ g.gives sex child bond) :
    g.addParentage parent child = .ok (g.withBonds (g.bonds ++ [.parental parent child])) := by
  obtain ⟨p, hp, found⟩ := require_of_isSome joins.first
  obtain ⟨q, -, found'⟩ := require_of_isSome joins.second
  have none : g.bonds.any (g.givesParent parent p.sex child) = false := by
    rw [List.any_eq_false]
    intro bond member gives
    exact orphan p.sex (by simp [Genealogy.gives, hp]) bond member (gives_of_givesParent hp gives)
  have ne : parent ≠ child := joins.ne
  rw [addParentage, found, found']
  simp [bind, Except.bind, ne, none]

/-! ### The replay -/

/-- What holds of one bond at most, and of this one, holds of none before it. -/
theorem none_before {done rest : List Bond} {bond : Bond} {P : Bond → Bool}
    (few : (done ++ bond :: rest).countP P ≤ 1) (here : P bond) : ∀ old ∈ done, ¬ P old := by
  have once : (bond :: rest).countP P = rest.countP P + 1 := List.countP_cons_of_pos here
  rw [List.countP_append, once] at few
  exact List.countP_eq_zero.1 (by omega)

namespace IsConsistent

/-- Each bond passes its checks after those that are stored before it. -/
theorem addBond_stored (c : g.IsConsistent) {done rest : List Bond} {bond : Bond}
    (stored : g.bonds = done ++ bond :: rest) :
    (g.withBonds done).addBond bond = .ok (g.withBonds (done ++ [bond])) := by
  have joins : (g.withBonds done).Joins bond.ends :=
    (c.joins bond (by simp [stored])).of_people rfl
  cases bond with
  | marital first second wedding =>
    refine marry_of_joins joins fun id here => none_before (stored ▸ c.spouse id) ?_
    simpa [weds, Bond.isMarital, Bond.links] using here
  | parental parent child =>
    exact addParentage_of_joins joins fun sex here =>
      none_before (stored ▸ c.parent sex child) here

theorem addBonds_stored (c : g.IsConsistent) {done bonds : List Bond}
    (stored : g.bonds = done ++ bonds) :
    bonds.foldlM Genealogy.addBond (g.withBonds done) = .ok (g.withBonds g.bonds) := by
  induction bonds generalizing done with
  | nil =>
    rw [stored, List.append_nil]
    rfl
  | cons bond bonds ih =>
    rw [List.foldlM_cons, c.addBond_stored stored]
    exact ih (by rw [stored, List.append_assoc]; rfl)

theorem addPeople_stored (c : g.IsConsistent) {done people : List Profile}
    (stored : g.people = done ++ people) :
    people.foldlM Genealogy.addPerson { people := done } = .ok { people := g.people } := by
  induction people generalizing done with
  | nil =>
    rw [stored, List.append_nil]
    rfl
  | cons p people ih =>
    have fresh : ∀ q ∈ done, q.id ≠ p.id := by
      intro q hq
      have apart := c.ids
      rw [stored, List.map_append, List.nodup_append] at apart
      exact apart.2.2 _ (List.mem_map_of_mem hq) _ (by simp)
    rw [List.foldlM_cons, addPerson_of_fresh fresh (c.free p (by simp [stored]))]
    exact ih (by rw [stored, List.append_assoc]; rfl)

/-- A consistent genealogy is made from its persons and bonds as they are stored. -/
theorem ofSnapshot_snapshot (c : g.IsConsistent) :
    ofSnapshot g.snapshot = .ok (g.withBonds g.bonds) := by
  have people : g.people.foldlM Genealogy.addPerson {} = .ok { people := g.people } :=
    c.addPeople_stored (List.nil_append g.people).symm
  rw [ofSnapshot, Genealogy.make, Genealogy.empty, show g.snapshot.people = g.people from rfl,
    people]
  exact c.addBonds_stored (List.nil_append g.bonds).symm

end IsConsistent

/-- A snapshot of a genealogy is accepted, whatever edits were tried on the genealogy, and has
the same persons, bonds and family tree. -/
theorem Reachable.rebuilt (reached : g.Reachable) :
    ∃ h, ofSnapshot g.snapshot = .ok h ∧ h.people = g.people ∧ h.bonds = g.bonds ∧
      h.tree.1 = g.tree.1 :=
  ⟨_, reached.isConsistent.ofSnapshot_snapshot, rfl, rfl, reached.tree_eq.symm⟩

/-- Ann and Bob divorce, a second mother is refused, and they marry again, so that their
wedding is stored after their daughter. -/
theorem Reachable.rebuilt_remarried :
    ∃ g : Genealogy, g.Reachable ∧
      g.bonds = [.parental 1 3, .parental 2 3,
        .marital 2 1 ⟨1990, 5, 6, by decide, by decide, by decide, by decide⟩] ∧
      ∃ h, ofSnapshot g.snapshot = .ok h ∧ h.people = g.people ∧ h.bonds = g.bonds ∧
        h.tree.1 = g.tree.1 := by
  let divorced := threesome.attempt (.divorce 2 1)
  let refused := divorced.tree.2.attempt (.addParentage 1 3)
  have reached : (refused.attempt (.marry 2 1
      ⟨1990, 5, 6, by decide, by decide, by decide, by decide⟩)).Reachable :=
    .attempt _ (.attempt _ (.tree (.attempt _ (.make threesome_accepted))))
  exact ⟨_, reached, by rfl, reached.rebuilt⟩

end Genealogy
end KinQuery
