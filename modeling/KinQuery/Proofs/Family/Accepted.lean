import KinQuery.Family.Genealogy
import Mathlib.Data.List.Basic

/-! What a genealogy is made of once it is accepted, and what its family tree shows: the
persons it was made from, each with their own id and without quotes, and the weddings of its
bonds. -/
namespace KinQuery

variable {people : List Profile} {bonds : List Bond}

/-! ### The genealogy -/

namespace Genealogy
variable {g h : Genealogy}

/-- The checks that adding persons and bonds makes. -/
structure IsSound (g : Genealogy) : Prop where
  unique : ∀ p ∈ g.people, ∀ q ∈ g.people, p.id = q.id → p = q
  free : ∀ p ∈ g.people, ∀ field ∈ p.texts, Text.quote ∉ field.2.toList
  tree? : g.tree? = none

theorem addPerson_eq_ok {p : Profile} (ok : g.addPerson p = .ok h) :
    h = { people := g.people ++ [p], bonds := g.bonds } ∧ (∀ q ∈ g.people, q.id ≠ p.id) ∧
      ∀ field ∈ p.texts, Text.quote ∉ field.2.toList := by
  unfold addPerson at ok
  split at ok
  · cases ok
  · rename_i fresh
    split at ok
    · cases ok
    · rename_i free
      refine ⟨(Except.ok.inj ok).symm, ?_, ?_⟩
      · simpa [Genealogy.person?] using fresh
      · simpa using free

theorem IsSound.addPerson {p : Profile} (sound : g.IsSound) (ok : g.addPerson p = .ok h) :
    h.IsSound ∧ h.people = g.people ++ [p] ∧ h.bonds = g.bonds := by
  obtain ⟨rfl, fresh, free⟩ := addPerson_eq_ok ok
  refine ⟨⟨fun p hp q hq same => ?_, fun q hq => ?_, rfl⟩, rfl, rfl⟩
  · rcases List.mem_append.1 hp with old | hp
    · rcases List.mem_append.1 hq with hq | hq
      · exact sound.unique p old q hq same
      · obtain rfl := List.mem_singleton.1 hq
        exact absurd same (fresh p old)
    · obtain rfl := List.mem_singleton.1 hp
      rcases List.mem_append.1 hq with hq | hq
      · exact absurd same.symm (fresh q hq)
      · exact (List.mem_singleton.1 hq).symm
  · rcases List.mem_append.1 hq with hq | hq
    · exact sound.free q hq
    · obtain rfl := List.mem_singleton.1 hq
      exact free

theorem require_bind {α : Type} {id : PersonId} {f : Profile → Except Failure α} {a : α}
    (ok : (g.require id >>= f) = .ok a) : ∃ p, f p = .ok a := by
  cases hp : g.require id with
  | error failure =>
    rw [hp] at ok
    cases ok
  | ok p =>
    rw [hp] at ok
    exact ⟨p, ok⟩

theorem addBond_eq_ok {bond : Bond} (ok : g.addBond bond = .ok h) :
    h = g.withBonds (g.bonds ++ [bond]) := by
  cases bond with
  | marital first second wedding =>
    obtain ⟨p, ok⟩ := require_bind ok
    obtain ⟨q, ok⟩ := require_bind ok
    split at ok
    · cases ok
    · split at ok
      · cases ok
      · exact (Except.ok.inj ok).symm
  | parental parent child =>
    obtain ⟨p, ok⟩ := require_bind ok
    obtain ⟨q, ok⟩ := require_bind ok
    split at ok
    · cases ok
    · split at ok
      · cases ok
      · exact (Except.ok.inj ok).symm

theorem addPeople_eq_ok (sound : g.IsSound) (ok : people.foldlM addPerson g = .ok h) :
    h.IsSound ∧ h.people = g.people ++ people ∧ h.bonds = g.bonds := by
  induction people generalizing g with
  | nil =>
    cases ok
    exact ⟨sound, by simp, rfl⟩
  | cons p people ih =>
    rw [List.foldlM_cons] at ok
    cases first : g.addPerson p with
    | error failure =>
      rw [first] at ok
      cases ok
    | ok e =>
      rw [first] at ok
      obtain ⟨sound', grown, same⟩ := sound.addPerson first
      obtain ⟨sound'', people', same'⟩ := ih sound' ok
      exact ⟨sound'', by simp [people', grown], same'.trans same⟩

theorem addBonds_eq_ok (sound : g.IsSound) (ok : bonds.foldlM addBond g = .ok h) :
    h.IsSound ∧ h.people = g.people ∧ h.bonds = g.bonds ++ bonds := by
  induction bonds generalizing g with
  | nil =>
    cases ok
    exact ⟨sound, rfl, by simp⟩
  | cons bond bonds ih =>
    rw [List.foldlM_cons] at ok
    cases first : g.addBond bond with
    | error failure =>
      rw [first] at ok
      cases ok
    | ok e =>
      rw [first] at ok
      obtain rfl := addBond_eq_ok first
      have sound' : (g.withBonds (g.bonds ++ [bond])).IsSound := ⟨sound.unique, sound.free, rfl⟩
      obtain ⟨sound'', people', bonds'⟩ := ih sound' ok
      exact ⟨sound'', people', by simp [bonds', withBonds]⟩

/-- A genealogy that is accepted holds what it was made from. -/
theorem make_eq_ok (ok : make people bonds = .ok g) :
    g.IsSound ∧ g.people = people ∧ g.bonds = bonds := by
  unfold make at ok
  cases first : people.foldlM addPerson empty with
  | error failure =>
    rw [first] at ok
    cases ok
  | ok e =>
    rw [first] at ok
    have sound : empty.IsSound := ⟨by simp [empty], by simp [empty], rfl⟩
    obtain ⟨sound', people', none⟩ := addPeople_eq_ok sound first
    obtain ⟨sound'', same, bonds'⟩ := addBonds_eq_ok sound' ok
    exact ⟨sound'', by simp [same, people', empty], by simp [bonds', none, empty]⟩

end Genealogy

/-! ### The family tree -/

namespace FamilyTree
variable {tree : FamilyTree} {P : Vertex → Prop}

theorem mem_modify {i : Nat} {f : Vertex → Vertex} {v : Vertex}
    (h : v ∈ (tree.modify i f).vertices) : v ∈ tree.vertices ∨ ∃ u ∈ tree.vertices, v = f u := by
  obtain ⟨j, hj⟩ := List.mem_iff_getElem?.1 h
  rw [modify, List.getElem?_modify, Option.map_eq_map, Option.map_eq_some_iff] at hj
  obtain ⟨u, hu, rfl⟩ := hj
  have member : u ∈ tree.vertices := List.mem_of_getElem? hu
  by_cases here : i = j
  · rw [if_pos here]
    exact .inr ⟨u, member, rfl⟩
  · rw [if_neg here]
    exact .inl member

theorem each_modify {i : Nat} {f : Vertex → Vertex} (each : ∀ v ∈ tree.vertices, P v)
    (kept : ∀ v, P v → P (f v)) : ∀ v ∈ (tree.modify i f).vertices, P v := by
  intro v hv
  rcases mem_modify hv with hv | ⟨u, hu, rfl⟩
  · exact each v hv
  · exact kept u (each u hu)

/-- The person of a vertex is one of some people, and the wedding is that of some bond. -/
structure Shows (people : List Profile) (bonds : List Bond) (v : Vertex) : Prop where
  profile : v.profile ∈ people
  wedding : ∀ d, v.wedding = some d → ∃ first second, .marital first second d ∈ bonds

theorem each_link {bond : Bond} (member : bond ∈ bonds)
    (each : ∀ v ∈ tree.vertices, Shows people bonds v) :
    ∀ v ∈ (tree.link bond).vertices, Shows people bonds v := by
  cases bond with
  | marital first second wedding =>
    have kept (i : Nat) (v : Vertex) (hv : Shows people bonds v) :
        Shows people bonds (v.setSpouse i wedding) := by
      refine ⟨hv.profile, fun d hd => ?_⟩
      cases hd
      exact ⟨first, second, member⟩
    rw [link]
    split
    · exact each_modify (each_modify each (kept _)) (kept _)
    · exact each
  | parental parent child =>
    rw [link]
    split
    · split
      · refine each_modify (each_modify each fun v hv => ⟨hv.profile, hv.wedding⟩) fun v hv => ?_
        unfold Vertex.setParent
        split <;> exact ⟨hv.profile, hv.wedding⟩
      · exact each
    · exact each

theorem each_foldl_link {added : List Bond} (members : ∀ bond ∈ added, bond ∈ bonds)
    (each : ∀ v ∈ tree.vertices, Shows people bonds v) :
    ∀ v ∈ (added.foldl link tree).vertices, Shows people bonds v := by
  induction added generalizing tree with
  | nil => exact each
  | cons bond added ih =>
    obtain ⟨first, rest⟩ := List.forall_mem_cons.1 members
    exact ih rest (each_link first each)

theorem each_build (people : List Profile) (bonds : List Bond) :
    ∀ v ∈ (build people bonds).vertices, Shows people bonds v := by
  refine each_foldl_link (fun _ h => h) fun v hv => ?_
  obtain ⟨p, hp, rfl⟩ := List.mem_map.1 hv
  exact ⟨hp, fun d hd => by cases hd⟩

end FamilyTree
end KinQuery
