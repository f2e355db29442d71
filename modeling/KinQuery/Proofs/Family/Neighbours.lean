import KinQuery.Proofs.Family.Chain

/-! Chains of one term, and what they say of the bonds.

Neighbours are one step apart, so that the chain between them is the one term that names the step.
A term belongs to one of three groups: parents, children and the spouse. Whoever is linked to
someone in two ways is named by one of them only; in an orderly family there is nobody like that,
and the group of the term is the link. -/
namespace KinQuery

/-! ### Groups of terms -/

/-- The relatives that one step leads to. -/
inductive Circle where
  | parents
  | children
  | spouse
  deriving DecidableEq

namespace Circle

/-- The vertices that a vertex is linked to. -/
def links : Circle → Vertex → List Nat
  | .parents, v => v.father.toList ++ v.mother.toList
  | .children, v => v.children
  | .spouse, v => v.spouse.toList

end Circle

def Kin.circle : Kin → Circle
  | .father | .mother => .parents
  | .husband | .wife => .spouse
  | .son | .daughter => .children

/-! ### Orderly families -/

namespace Genealogy

/-- Nobody is married to a parent or a child, and no two persons are parents of each other. -/
structure IsOrderly (g : Genealogy) : Prop where
  unwed : ∀ a b wedding, g.Married a b wedding → .parental a b ∉ g.bonds
  ordered : ∀ a b, .parental a b ∈ g.bonds → .parental b a ∉ g.bonds

end Genealogy

namespace FamilyTree
variable {tree : FamilyTree} {g : Genealogy} {i j a b : Nat} {v w : Vertex} {kin : Kin}
  {c d : Circle}

theorem Mirrors.indexOf?_of_vertex? (mirror : tree.Mirrors g) (hv : tree.vertex? i = some v) :
    tree.indexOf? v.profile.id = some i :=
  mirror.indexOf?_of_person? (by rw [person?, hv, Option.map_some])

theorem Mirrors.mem_children_iff (mirror : tree.Mirrors g) (hv : tree.vertex? i = some v)
    (hw : tree.vertex? j = some w) :
    j ∈ v.children ↔ .parental v.profile.id w.profile.id ∈ g.bonds := by
  have hi := mirror.indexOf?_of_vertex? hv
  have hj := mirror.indexOf?_of_vertex? hw
  rw [mirror.child]
  constructor
  · exact fun child => ⟨i, j, v, hi, hj, hv, child⟩
  · rintro ⟨i', j', v', hi', hj', hv', child⟩
    obtain rfl := Option.some.inj (hi.symm.trans hi')
    obtain rfl := Option.some.inj (hj.symm.trans hj')
    rwa [Option.some.inj (hv.symm.trans hv')]

theorem Mirrors.married_of_spouse (mirror : tree.Mirrors g) (hv : tree.vertex? i = some v)
    (hw : tree.vertex? j = some w) (spouse : v.spouse = some j) :
    ∃ wedding, g.Married v.profile.id w.profile.id wedding := by
  have wed : v.wedding.isSome := by
    rw [mirror.wedding i v hv, spouse]
    rfl
  obtain ⟨wedding, known⟩ := Option.isSome_iff_exists.1 wed
  exact ⟨wedding, (mirror.spouse _ _ _).2 ⟨i, j, v, mirror.indexOf?_of_vertex? hv,
    mirror.indexOf?_of_vertex? hw, hv, spouse, known⟩⟩

/-! ### The group of a term -/

theorem linked_iff_links :
    tree.Linked i j ↔ ∃ v, tree.vertex? i = some v ∧ ∃ c, j ∈ Circle.links c v := by
  constructor
  · rintro ⟨v, hv, father | mother | spouse | child⟩
    · exact ⟨v, hv, .parents, by simp [Circle.links, father]⟩
    · exact ⟨v, hv, .parents, by simp [Circle.links, mother]⟩
    · exact ⟨v, hv, .spouse, by simp [Circle.links, spouse]⟩
    · exact ⟨v, hv, .children, child⟩
  · rintro ⟨v, hv, c, member⟩
    refine ⟨v, hv, ?_⟩
    cases c with
    | parents =>
      rcases List.mem_append.1 member with father | mother
      · exact .inl (Option.mem_toList.1 father)
      · exact .inr (.inl (Option.mem_toList.1 mother))
    | children => exact .inr (.inr (.inr member))
    | spouse => exact .inr (.inr (.inl (Option.mem_toList.1 member)))

theorem Is.mem_links (is : tree.Is i j kin) (hv : tree.vertex? i = some v) :
    j ∈ kin.circle.links v := by
  obtain ⟨v', w, hv', -, named⟩ := is
  obtain rfl := Option.some.inj (hv.symm.trans hv')
  cases kin <;> simp_all [Kin.circle, Circle.links]

/-- Whoever is a parent of someone has them for a child. -/
theorem Mirrors.mem_parents_iff (mirror : tree.Mirrors g) (hv : tree.vertex? i = some v)
    (hw : tree.vertex? j = some w) : j ∈ Circle.parents.links v ↔ i ∈ w.children := by
  simp only [Circle.links, List.mem_append, Option.mem_toList]
  have father := mirror.father j i w v hw hv
  have mother := mirror.mother j i w v hw hv
  cases sex : w.profile.sex <;> simp_all

/-- Nobody is linked to themselves. -/
theorem Mirrors.ne_of_mem_links (mirror : tree.Mirrors g) (consistent : g.IsConsistent)
    (hv : tree.vertex? i = some v) (member : j ∈ c.links v) : j ≠ i := by
  rintro rfl
  have lone (bond : Bond) (h : bond ∈ g.bonds) : bond.ends ≠ (v.profile.id, v.profile.id) :=
    fun same => (consistent.joins bond h).ne (by rw [same])
  have parent (child : j ∈ v.children) : False :=
    lone _ ((mirror.mem_children_iff hv hv).1 child) rfl
  cases c with
  | parents => exact parent ((mirror.mem_parents_iff hv hv).1 member)
  | children => exact parent member
  | spouse =>
    obtain ⟨wedding, married | married⟩ :=
      mirror.married_of_spouse hv hv (Option.mem_toList.1 member) <;>
      exact lone _ married rfl

theorem Mirrors.links_nodup (mirror : tree.Mirrors g) (hv : tree.vertex? i = some v) (c : Circle) :
    (c.links v).Nodup := by
  cases c with
  | parents =>
    have apart (j : Nat) (father : v.father = some j) : v.mother ≠ some j := by
      intro mother
      obtain ⟨w, hw⟩ := mirror.exists_vertex ⟨v, hv, .inl father⟩
      have male := ((mirror.father j i w v hw hv).1 father).1
      have female := ((mirror.mother j i w v hw hv).1 mother).1
      rw [male] at female
      cases female
    have disjoint : ∀ j ∈ v.father.toList, j ∉ v.mother.toList := fun j father mother =>
      apart j (Option.mem_toList.1 father) (Option.mem_toList.1 mother)
    exact List.nodup_append'.2 ⟨v.father.toList_nodup, v.mother.toList_nodup, disjoint⟩
  | children => exact mirror.distinct i v hv
  | spouse => exact v.spouse.toList_nodup

theorem Mirrors.links_apart (mirror : tree.Mirrors g) (orderly : g.IsOrderly)
    (hv : tree.vertex? i = some v) (hc : j ∈ c.links v) (hd : j ∈ d.links v) : c = d := by
  obtain ⟨w, hw⟩ := mirror.exists_vertex (linked_iff_links.2 ⟨v, hv, c, hc⟩)
  have below : j ∈ Circle.parents.links v ↔ .parental w.profile.id v.profile.id ∈ g.bonds :=
    (mirror.mem_parents_iff hv hw).trans (mirror.mem_children_iff hw hv)
  have above : j ∈ Circle.children.links v ↔ .parental v.profile.id w.profile.id ∈ g.bonds :=
    mirror.mem_children_iff hv hw
  have wed (spouse : j ∈ Circle.spouse.links v) :
      ∃ wedding, g.Married v.profile.id w.profile.id wedding :=
    mirror.married_of_spouse hv hw (Option.mem_toList.1 spouse)
  have twice (up : j ∈ Circle.parents.links v) (down : j ∈ Circle.children.links v) : False :=
    orderly.ordered _ _ (above.1 down) (below.1 up)
  have upward (up : j ∈ Circle.parents.links v) (spouse : j ∈ Circle.spouse.links v) : False := by
    obtain ⟨wedding, married⟩ := wed spouse
    exact orderly.unwed _ _ wedding (Or.symm married) (below.1 up)
  have downward (down : j ∈ Circle.children.links v) (spouse : j ∈ Circle.spouse.links v) :
      False := by
    obtain ⟨wedding, married⟩ := wed spouse
    exact orderly.unwed _ _ wedding married (above.1 down)
  -- The groups are three, and each two of them exclude each other in an orderly family.
  match c, d, hc, hd with
  | .parents, .parents, _, _ | .children, .children, _, _ | .spouse, .spouse, _, _ => rfl
  | .parents, .children, up, down | .children, .parents, down, up => exact (twice up down).elim
  | .parents, .spouse, up, wed | .spouse, .parents, wed, up => exact (upward up wed).elim
  | .children, .spouse, down, wed | .spouse, .children, wed, down => exact (downward down wed).elim

/-- In an orderly family, the term of a step is of the group that the link belongs to. -/
theorem Mirrors.circle_eq_iff (mirror : tree.Mirrors g) (orderly : g.IsOrderly)
    (hv : tree.vertex? i = some v) (link : tree.Linked i j) (named : tree.kinOf i j = some kin) :
    kin.circle = c ↔ j ∈ c.links v := by
  obtain ⟨kin', named', is⟩ := mirror.kinOf link
  obtain rfl := Option.some.inj (named.symm.trans named')
  have here := is.mem_links hv
  exact ⟨fun same => same ▸ here, fun there => mirror.links_apart orderly hv here there⟩

/-! ### Chains of one term -/

theorem Mirrors.step_of_kinship (mirror : tree.Mirrors g) (ha : a < tree.size)
    (one : tree.kinship a b = [kin]) : a ≠ b ∧ tree.Linked b a ∧ tree.kinOf b a = some kin := by
  have range : ∀ u < tree.size, ∀ v ∈ tree.neighbours u, v < tree.size :=
    fun u _ v near => mirror.linked_lt (linked_iff.2 near)
  -- A chain with a term is that of a walk, and the walk has as many steps as the chain has terms.
  have connected : ¬ (a = b ∨ ¬ ∃ n, tree.Walk b n a) := fun none => by
    rw [(mirror.kinship_eq_nil_iff ha).2 none] at one
    cases one
  rw [not_or, not_not] at connected
  obtain ⟨ne, n, walk⟩ := connected
  obtain ⟨leads, -⟩ :=
    (Search.predecessors_wayBack range ha b).1 n (Walk.search_iff.2 (walk.reverse mirror))
  set steps := Search.wayBack _ _ b
  have named : tree.named steps = [kin] := one
  have length : steps.length = 1 := by rw [← (mirror.described leads).1, named]; rfl
  obtain ⟨last, single⟩ := List.length_eq_one_iff.1 length
  rw [single] at leads named
  cases leads with
  | cons near rest =>
    cases rest
    refine ⟨ne, mirror.linked_symm (linked_iff.2 near), ?_⟩
    cases known : tree.kinOf b a with
    | none => simp [FamilyTree.named, known] at named
    | some other => simpa [FamilyTree.named, known] using named

/-- A chain of one term is the term of a single step. -/
theorem Mirrors.kinship_eq_singleton_iff (mirror : tree.Mirrors g) (ha : a < tree.size) :
    tree.kinship a b = [kin] ↔ a ≠ b ∧ tree.Linked b a ∧ tree.kinOf b a = some kin := by
  refine ⟨mirror.step_of_kinship ha, fun ⟨ne, link, named⟩ => ?_⟩
  have walk : tree.Walk b 1 a := .cons link (.nil a)
  have short := ((mirror.kinship_spec ha).1 1 walk).2
  have nonempty : tree.kinship a b ≠ [] := fun empty =>
    ((mirror.kinship_eq_nil_iff ha).1 empty).elim ne fun apart => apart ⟨1, walk⟩
  obtain ⟨other, one⟩ := List.length_eq_one_iff.1
    (Nat.le_antisymm short (List.length_pos_of_ne_nil nonempty))
  obtain ⟨-, -, named'⟩ := mirror.step_of_kinship ha one
  rw [one, Option.some.inj (named.symm.trans named')]

/-- In an orderly family, the chains of one term of a group lead to those linked in that way. -/
theorem Mirrors.kinship_circle_iff (mirror : tree.Mirrors g) (orderly : g.IsOrderly)
    (ha : a < tree.size) (ne : a ≠ b) (hv : tree.vertex? b = some v) :
    (∃ kin, tree.kinship a b = [kin] ∧ kin.circle = c) ↔ a ∈ c.links v := by
  constructor
  · rintro ⟨kin, one, rfl⟩
    obtain ⟨-, link, named⟩ := mirror.step_of_kinship ha one
    exact (mirror.circle_eq_iff orderly hv link named).1 rfl
  · intro member
    have link : tree.Linked b a := linked_iff_links.2 ⟨v, hv, c, member⟩
    obtain ⟨kin, named, -⟩ := mirror.kinOf link
    exact ⟨kin, (mirror.kinship_eq_singleton_iff ha).2 ⟨ne, link, named⟩,
      (mirror.circle_eq_iff orderly hv link named).2 member⟩

end FamilyTree
end KinQuery
