import KinQuery.Family.Kinship
import KinQuery.Proofs.Family.BreadthFirst
import KinQuery.Proofs.Family.Mirror

/-! Kinship chains are shortest walks, each step named as the tree has it.

The search follows links away from one person, and the chain names its way back. That the
links of a way back are links at all, and the last case of naming a step, rest on the tree
being a mirror: whoever has a neighbour is one of theirs. -/
namespace KinQuery

namespace FamilyTree
variable {tree : FamilyTree} {g : Genealogy} {i j : Nat}

/-- Whether `j` is the father, mother, spouse or a child of `i`. -/
def Linked (tree : FamilyTree) (i j : Nat) : Prop :=
  ∃ v, tree.vertex? i = some v ∧
    (v.father = some j ∨ v.mother = some j ∨ v.spouse = some j ∨ j ∈ v.children)

/-- A walk over links, by the number of its steps. -/
inductive Walk (tree : FamilyTree) : Nat → Nat → Nat → Prop
  | nil (i : Nat) : Walk tree i 0 i
  | cons {i j k n : Nat} (link : tree.Linked i j) (rest : Walk tree j n k) : Walk tree i (n + 1) k

/-- Whether a kinship term names what `j` is to `i`. -/
def Is (tree : FamilyTree) (i j : Nat) (kin : Kin) : Prop :=
  ∃ v w, tree.vertex? i = some v ∧ tree.vertex? j = some w ∧
    match kin with
    | .father => v.father = some j
    | .mother => v.mother = some j
    | .husband => v.spouse = some j ∧ w.profile.sex = .male
    | .wife => v.spouse = some j ∧ w.profile.sex = .female
    | .son => j ∈ v.children ∧ w.profile.sex = .male
    | .daughter => j ∈ v.children ∧ w.profile.sex = .female

/-- Walks whose steps are named by a chain of terms. -/
inductive Described (tree : FamilyTree) : Nat → List Kin → Nat → Prop
  | nil (i : Nat) : Described tree i [] i
  | cons {i j k : Nat} {kin : Kin} {chain : List Kin} (named : tree.Is i j kin)
      (rest : Described tree j chain k) : Described tree i (kin :: chain) k

/-! ### Links -/

theorem linked_iff : tree.Linked i j ↔ j ∈ tree.neighbours i := by
  cases hv : tree.vertex? i with
  | none => simp [Linked, neighbours, hv]
  | some v => simp [Linked, neighbours, Vertex.neighbours, hv]

theorem Mirrors.linked_lt (mirror : tree.Mirrors g) (link : tree.Linked i j) : j < tree.size := by
  obtain ⟨v, hv, linked⟩ := link
  exact mirror.range i v hv j (by simpa [Vertex.neighbours, or_assoc] using linked)

theorem Mirrors.exists_vertex (mirror : tree.Mirrors g) (link : tree.Linked i j) :
    ∃ w, tree.vertex? j = some w :=
  ⟨_, List.getElem?_eq_getElem (mirror.linked_lt link)⟩

/-- Links go both ways. -/
theorem Mirrors.linked_symm (mirror : tree.Mirrors g) (link : tree.Linked i j) : tree.Linked j i := by
  obtain ⟨w, hw⟩ := mirror.exists_vertex link
  obtain ⟨v, hv, father | mother | spouse | child⟩ := link
  · exact ⟨w, hw, .inr (.inr (.inr ((mirror.father j i w v hw hv).1 father).2))⟩
  · exact ⟨w, hw, .inr (.inr (.inr ((mirror.mother j i w v hw hv).1 mother).2))⟩
  · exact ⟨w, hw, .inr (.inr (.inl (mirror.bothWays i j v w hv hw spouse).1))⟩
  · refine ⟨w, hw, ?_⟩
    cases sex : v.profile.sex with
    | male => exact .inl ((mirror.father i j v w hv hw).2 ⟨sex, child⟩)
    | female => exact .inr (.inl ((mirror.mother i j v w hv hw).2 ⟨sex, child⟩))

/-! ### Naming a step -/

/-- The term of a step to someone who is linked is there, and it is right. -/
theorem Mirrors.kinOf (mirror : tree.Mirrors g) (link : tree.Linked i j) :
    ∃ kin, tree.kinOf i j = some kin ∧ tree.Is i j kin := by
  obtain ⟨w, hw⟩ := mirror.exists_vertex link
  obtain ⟨v, hv, linked⟩ := link
  have known : tree.person? j = some w.profile := by rw [person?, hw, Option.map_some]
  rw [FamilyTree.kinOf]
  simp only [hv, known, Option.bind_eq_bind, Option.bind_some]
  by_cases spouse : v.spouse = some j
  · rw [if_pos spouse]
    cases sex : w.profile.sex with
    | male => exact ⟨_, rfl, v, w, hv, hw, spouse, sex⟩
    | female => exact ⟨_, rfl, v, w, hv, hw, spouse, sex⟩
  rw [if_neg spouse]
  by_cases father : v.father = some j
  · rw [if_pos father]
    exact ⟨_, rfl, v, w, hv, hw, father⟩
  rw [if_neg father]
  by_cases mother : v.mother = some j
  · rw [if_pos mother]
    exact ⟨_, rfl, v, w, hv, hw, mother⟩
  rw [if_neg mother]
  -- no other link is left
  have child : j ∈ v.children := by simpa [spouse, father, mother] using linked
  cases sex : w.profile.sex with
  | male => exact ⟨_, rfl, v, w, hv, hw, child, sex⟩
  | female => exact ⟨_, rfl, v, w, hv, hw, child, sex⟩

/-! ### Walks -/

namespace Walk
variable {k m n : Nat}

theorem snoc (walk : tree.Walk i n j) (link : tree.Linked j k) : tree.Walk i (n + 1) k := by
  induction walk with
  | nil i => exact .cons link (.nil k)
  | cons first _ ih => exact .cons first (ih link)

theorem reverse (mirror : tree.Mirrors g) (walk : tree.Walk i n j) : tree.Walk j n i := by
  induction walk with
  | nil i => exact .nil i
  | cons link _ ih => exact ih.snoc (mirror.linked_symm link)

theorem search (walk : tree.Walk i n j) : ∀ {k m : Nat}, Search.Walk tree.neighbours k m i →
    Search.Walk tree.neighbours k (m + n) j := by
  induction walk with
  | nil i => exact fun so => so
  | cons link _ ih =>
    intro k m so
    have far := ih (.snoc so (linked_iff.1 link))
    rwa [Nat.add_right_comm] at far

theorem of_search (walk : Search.Walk tree.neighbours i n j) : tree.Walk i n j := by
  induction walk with
  | nil => exact .nil i
  | snoc _ near ih => exact ih.snoc (linked_iff.2 near)

theorem search_iff : Search.Walk tree.neighbours i n j ↔ tree.Walk i n j :=
  ⟨of_search, fun walk => by simpa using walk.search (.nil i)⟩

end Walk

theorem Is.linked {kin : Kin} (is : tree.Is i j kin) : tree.Linked i j := by
  obtain ⟨v, w, hv, -, named⟩ := is
  refine ⟨v, hv, ?_⟩
  cases kin <;> simp_all

theorem Described.walk {chain : List Kin} (described : tree.Described i chain j) :
    tree.Walk i chain.length j := by
  induction described with
  | nil i => exact .nil i
  | cons named _ ih => exact .cons named.linked ih

/-- The steps of a way back, named one by one. -/
def named (tree : FamilyTree) (steps : List (Nat × Nat)) : List Kin :=
  steps.filterMap fun (i, relative) => tree.kinOf i relative

theorem Mirrors.described (mirror : tree.Mirrors g) {goal : Nat} {steps : List (Nat × Nat)}
    (leads : Search.Leads tree.neighbours goal i steps) :
    (tree.named steps).length = steps.length ∧ tree.Described i (tree.named steps) goal := by
  induction leads with
  | nil => exact ⟨rfl, .nil goal⟩
  | @cons v u steps near _ ih =>
    obtain ⟨length, described⟩ := ih
    obtain ⟨kin, first, is⟩ := mirror.kinOf (mirror.linked_symm (linked_iff.2 near))
    have more : tree.named ((v, u) :: steps) = kin :: tree.named steps := by simp [named, first]
    rw [more]
    exact ⟨by simp [length], .cons is described⟩

/-! ### Chains -/

variable {a b : Nat}

theorem Mirrors.kinship_spec (mirror : tree.Mirrors g) (ha : a < tree.size) :
    (∀ n, tree.Walk b n a →
      tree.Described b (tree.kinship a b) a ∧ (tree.kinship a b).length ≤ n) ∧
    ((¬ ∃ n, tree.Walk b n a) → tree.kinship a b = []) := by
  have range : ∀ u < tree.size, ∀ v ∈ tree.neighbours u, v < tree.size :=
    fun u _ v near => mirror.linked_lt (linked_iff.2 near)
  obtain ⟨shortest, none⟩ := Search.predecessors_wayBack range ha b
  constructor
  · intro n walk
    obtain ⟨leads, short⟩ := shortest n (Walk.search_iff.2 (walk.reverse mirror))
    obtain ⟨length, described⟩ := mirror.described leads
    exact ⟨described, Nat.le_trans (Nat.le_of_eq length) short⟩
  · intro apart
    have steps := none fun ⟨n, walk⟩ => apart ⟨n, (Walk.search_iff.1 walk).reverse mirror⟩
    exact congrArg tree.named steps

/-- A chain has no terms for the same person, and for persons whom no walk connects. -/
theorem Mirrors.kinship_eq_nil_iff (mirror : tree.Mirrors g) (ha : a < tree.size) :
    tree.kinship a b = [] ↔ a = b ∨ ¬ ∃ n, tree.Walk b n a := by
  obtain ⟨shortest, none⟩ := mirror.kinship_spec (b := b) ha
  constructor
  · intro empty
    by_cases connected : ∃ n, tree.Walk b n a
    · obtain ⟨n, walk⟩ := connected
      have described := (shortest n walk).1
      rw [empty] at described
      cases described
      exact .inl rfl
    · exact .inr connected
  · rintro (rfl | apart)
    · exact List.eq_nil_of_length_eq_zero (Nat.le_zero.1 (shortest 0 (.nil a)).2)
    · exact none apart

theorem Mirrors.kinship_length_le (mirror : tree.Mirrors g) (ha : a < tree.size)
    (hb : b < tree.size) : (tree.kinship a b).length ≤ (tree.kinship b a).length := by
  by_cases connected : ∃ n, tree.Walk b n a
  · obtain ⟨n, walk⟩ := connected
    have back := ((mirror.kinship_spec hb).1 n (walk.reverse mirror)).1.walk
    exact ((mirror.kinship_spec ha).1 _ (back.reverse mirror)).2
  · rw [(mirror.kinship_spec ha).2 connected]
    exact Nat.zero_le _

end FamilyTree

namespace Genealogy

/-- In the tree of every genealogy that edits reach, the kinship of two persons is the chain of
terms of a shortest walk from the second to the first. -/
theorem Reachable.kinship_shortest {g : Genealogy} (reached : g.Reachable) {a b : Nat}
    (ha : a < g.tree.1.size) (hb : b < g.tree.1.size) :
    ((∃ n, g.tree.1.Walk b n a) → g.tree.1.Described b (g.tree.1.kinship a b) a) ∧
      (∀ n, g.tree.1.Walk b n a → (g.tree.1.kinship a b).length ≤ n) ∧
      (g.tree.1.kinship a b = [] ↔ a = b ∨ ¬ ∃ n, g.tree.1.Walk b n a) ∧
      (g.tree.1.kinship a b).length = (g.tree.1.kinship b a).length := by
  have mirror := reached.mirrors
  have shortest := (mirror.kinship_spec (b := b) ha).1
  exact ⟨fun ⟨n, walk⟩ => (shortest n walk).1, fun n walk => (shortest n walk).2,
    mirror.kinship_eq_nil_iff ha,
    Nat.le_antisymm (mirror.kinship_length_le ha hb) (mirror.kinship_length_le hb ha)⟩

/-- Bob is Cyd's father, and Cyd his daughter. -/
theorem Reachable.kinship_shortest_father :
    ∃ g : Genealogy, g.Reachable ∧ 1 < g.tree.1.size ∧ 2 < g.tree.1.size ∧
      g.tree.1.kinship 1 2 = [.father] ∧ g.tree.1.kinship 2 1 = [.daughter] ∧
      ((∃ n, g.tree.1.Walk 2 n 1) → g.tree.1.Described 2 [.father] 1) ∧
      (∀ n, g.tree.1.Walk 2 n 1 → 1 ≤ n) := by
  have reached : threesome.Reachable := .make threesome_accepted
  have up : threesome.tree.1.kinship 1 2 = [.father] := by decide +kernel
  obtain ⟨described, short, -⟩ := reached.kinship_shortest (a := 1) (b := 2) (by decide) (by decide)
  rw [up] at described short
  exact ⟨threesome, reached, by decide, by decide, up, by decide +kernel, described, short⟩

end Genealogy
end KinQuery
