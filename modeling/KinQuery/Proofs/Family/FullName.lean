import KinQuery.Proofs.Family.Finding
import KinQuery.Proofs.Text.LowerCase

/-! Whom full names find in a family tree.

A full name is cut at its first space. Where the first name has no space the two names come back,
and if the full names of a tree differ in small letters, nobody else bears both. Where the first
name has a space, what is taken for it is a part of it alone, and the person is never found. -/
namespace KinQuery.FamilyTree

open Text (lowerCase)

variable {tree : FamilyTree} {p q : Profile} {a first last : String} {i j : Nat}

/-- Everyone has two names, and a full name of their own whatever the case of its letters. -/
structure IsNamedApart (tree : FamilyTree) : Prop where
  first : ∀ v ∈ tree.vertices, v.profile.firstName ≠ ""
  last : ∀ v ∈ tree.vertices, v.profile.lastName ≠ ""
  apart : (tree.vertices.map fun v => lowerCase v.profile.fullName).Nodup

/-! ### Cutting -/

theorem cutName_append_space (h : ' ' ∉ a.toList) (b : String) :
    cutName (a ++ " " ++ b) = (a, b) := by
  have spelled : (a ++ " " ++ b).toList = a.toList ++ ' ' :: b.toList := by simp
  have letters : ∀ c ∈ a.toList, decide (c ≠ ' ') = true := by
    intro c hc
    rw [decide_eq_true_eq]
    rintro rfl
    exact h hc
  rw [cutName, spelled, List.takeWhile_append_of_pos letters, List.dropWhile_append_of_pos letters]
  simp

theorem exists_cut (h : ' ' ∈ first.toList) :
    ∃ a b : String, ' ' ∉ a.toList ∧ first = a ++ " " ++ b := by
  obtain ⟨before, after, spelled, free⟩ := List.eq_append_cons_of_mem h
  refine ⟨.ofList before, .ofList after, by simpa using free, ?_⟩
  apply String.toList_injective
  simp [spelled]

/-! ### Bearing -/

theorem bears_iff (hfirst : first ≠ "") (hlast : last ≠ "") :
    bears (lowerCase first) (lowerCase last) q = true ↔
      lowerCase q.firstName = lowerCase first ∧ lowerCase q.lastName = lowerCase last := by
  rw [bears, Text.isEmpty_lowerCase hfirst, Text.isEmpty_lowerCase hlast]
  simp

theorem lowerCase_fullName_congr (hfirst : lowerCase q.firstName = lowerCase p.firstName)
    (hlast : lowerCase q.lastName = lowerCase p.lastName) :
    lowerCase q.fullName = lowerCase p.fullName := by
  rw [Profile.fullName, Profile.fullName, Text.lowerCase_append_space,
    Text.lowerCase_append_space, hfirst, hlast]

/-- A person does not bear a part of the first name, with the rest of it before the last name. -/
theorem bears_cut (p : Profile) (a b : String) (hp : p.firstName = a ++ " " ++ b) :
    bears (lowerCase a) (lowerCase (b ++ " " ++ p.lastName)) p = false := by
  have more : lowerCase p.firstName ≠ lowerCase a := hp ▸ (Text.lowerCase_append_space_ne a b).1
  have less : lowerCase p.lastName ≠ lowerCase (b ++ " " ++ p.lastName) :=
    (Text.lowerCase_append_space_ne b p.lastName).2.symm
  have split : (lowerCase (b ++ " " ++ p.lastName)).isEmpty = false :=
    Text.isEmpty_lowerCase (by simp)
  rw [bears, split]
  simp [more, less]

/-! ### Finding -/

namespace IsNamedApart

theorem eq_of_lowerCase (named : tree.IsNamedApart) (hp : tree.person? i = some p)
    (hq : tree.person? j = some q) (same : lowerCase q.fullName = lowerCase p.fullName) :
    j = i := by
  obtain ⟨v, hv, rfl⟩ := Option.map_eq_some_iff.1 hp
  obtain ⟨w, hw, rfl⟩ := Option.map_eq_some_iff.1 hq
  have inside := (List.getElem?_eq_some_iff.1 hw).1
  refine (List.getElem?_inj (by simpa using inside) named.apart).1 ?_
  rw [List.getElem?_map, List.getElem?_map]
  change (tree.vertex? j).map _ = (tree.vertex? i).map _
  rw [hv, hw, Option.map_some, Option.map_some, same]

/-- A full name finds its person exactly if the first name has no space. -/
theorem findByFullName?_eq_iff (named : tree.IsNamedApart) (hp : tree.person? i = some p) :
    tree.findByFullName? p.fullName = some i ↔ ' ' ∉ p.firstName.toList := by
  have seats : tree.Seats (tree.vertices.map (·.profile)) := rfl
  obtain ⟨v, hv, rfl⟩ := Option.map_eq_some_iff.1 hp
  have member : v ∈ tree.vertices := List.mem_of_getElem? hv
  constructor
  · intro found spaced
    obtain ⟨a, b, free, hfirst⟩ := exists_cut spaced
    have full : v.profile.fullName = a ++ " " ++ (b ++ " " ++ v.profile.lastName) := by
      rw [Profile.fullName, hfirst]
      simp only [String.append_assoc]
    rw [full, findByFullName?, cutName_append_space free] at found
    obtain ⟨inside, here, -⟩ := List.findIdx?_eq_some_iff_getElem.1 found
    have same : tree.vertices[i] = v := (List.getElem?_eq_some_iff.1 hv).2
    rw [same, bears_cut v.profile a b hfirst] at here
    cases here
  · intro free
    obtain ⟨k, q, found, hq, alone⟩ := seats.exists_found ((seats.person? i).symm.trans hp)
    rw [Profile.fullName, findByFullName?, cutName_append_space free]
    dsimp only
    rw [found, alone.2]
    intro j before other hother
    rw [← seats.person?] at hother
    by_contra borne
    obtain ⟨sameFirst, sameLast⟩ :=
      (bears_iff (named.first v member) (named.last v member)).1 (Bool.not_eq_false _ ▸ borne)
    have := named.eq_of_lowerCase hp hother (lowerCase_fullName_congr sameFirst sameLast)
    omega

end IsNamedApart
end KinQuery.FamilyTree
