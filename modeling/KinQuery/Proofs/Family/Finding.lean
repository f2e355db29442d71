import KinQuery.Proofs.Family.Mirror

/-! Whom names find in a family tree: the first, in its order, who bears them. -/
namespace KinQuery

namespace Profile

/-- Whether another person bears the names of this one, whatever the case of their letters. Of two
names one may be empty, and then it is borne by everyone. -/
def namesFind (p other : Profile) : Bool :=
  FamilyTree.bears (Text.lowerCase p.firstName) (Text.lowerCase p.lastName) other

theorem namesFind_self (p : Profile) : p.namesFind p = true := by
  unfold namesFind FamilyTree.bears
  split
  · simp
  · split <;> simp

end Profile

namespace FamilyTree
variable {tree : FamilyTree} {g : Genealogy} {people : List Profile} {p : Profile} {i : Nat}

theorem Mirrors.seats (mirror : tree.Mirrors g) : tree.Seats g.people := by
  refine List.ext_getElem? fun i => ?_
  rw [List.getElem?_map]
  exact mirror.person i

theorem Seats.find? (seats : tree.Seats people) (p : Profile) :
    tree.find? p.firstName p.lastName = people.findIdx? p.namesFind := by
  rw [FamilyTree.find?, ← seats, List.findIdx?_map]
  rfl

/-- The names of a person find the first in the tree who bears them. -/
theorem Seats.exists_found (seats : tree.Seats people) (hp : people[i]? = some p) :
    ∃ k q, tree.find? p.firstName p.lastName = some k ∧ tree.person? k = some q ∧
      (k = i ↔ ∀ j < i, ∀ other, people[j]? = some other → p.namesFind other = false) := by
  obtain ⟨inside, rfl⟩ := List.getElem?_eq_some_iff.1 hp
  -- The person bears the names too, so someone is found, and not further on.
  cases found : people.findIdx? people[i].namesFind with
  | none =>
    have missed := List.findIdx?_eq_none_iff.1 found _ (List.getElem_mem inside)
    rw [Profile.namesFind_self] at missed
    cases missed
  | some k =>
    obtain ⟨lt, here, before⟩ := List.findIdx?_eq_some_iff_getElem.1 found
    refine ⟨k, people[k], (seats.find? _).trans found, ?_, ?_⟩
    · rw [seats.person?, List.getElem?_eq_getElem lt]
    · constructor
      · rintro rfl j earlier other hother
        obtain ⟨-, rfl⟩ := List.getElem?_eq_some_iff.1 hother
        simpa using before j earlier
      · intro alone
        rcases Nat.lt_trichotomy k i with earlier | same | later
        · have := alone k earlier _ (List.getElem?_eq_getElem lt)
          rw [here] at this
          cases this
        · exact same
        · exact absurd (Profile.namesFind_self _) (before i later)

/-- The person that the names find is the same exactly if nobody before them bears the names. -/
theorem Mirrors.exists_found (mirror : tree.Mirrors g) (hp : g.people[i]? = some p) :
    ∃ k q, tree.find? p.firstName p.lastName = some k ∧ tree.person? k = some q ∧
      (q.id = p.id ↔
        ∀ j < i, ∀ other, g.people[j]? = some other → p.namesFind other = false) := by
  obtain ⟨k, q, found, hq, first⟩ := mirror.seats.exists_found hp
  have here := mirror.indexOf?_of_person? ((mirror.person i).trans hp)
  have there := mirror.indexOf?_of_person? hq
  refine ⟨k, q, found, hq, Iff.trans ⟨fun same => ?_, ?_⟩ first⟩
  · rw [same] at there
    exact Option.some.inj (there.symm.trans here)
  · rintro rfl
    rw [mirror.person, hp] at hq
    rw [Option.some.inj hq]

end FamilyTree
end KinQuery
