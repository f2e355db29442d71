import KinQuery.Proofs.Family.Neighbours
import Mathlib.Data.List.Fold

/-! Generations between two persons.

The distance from one person to another is counted along the shortest walk that a search from the
first finds; the distance back is counted along the one that a search from the second finds, which
may be another. So the two are opposite if all shortest walks lead up alike, as they do if
everyone has a generation; but two families that married across generations have none. Levels that
the bonds respect are such generations, and then the distance is the difference of the levels. -/
namespace KinQuery

namespace FamilyTree
variable {tree : FamilyTree} {g : Genealogy} {i j k a b m n : Nat} {r s : Int} {level : Nat → Int}

/-! ### Walks that lead up -/

/-- The generations that a step leads up, as the one who is left or the one who is reached names
the other. -/
inductive Climbs (tree : FamilyTree) (i j : Nat) : Int → Prop
  | ahead {kin : Kin} : tree.Linked i j → tree.kinOf i j = some kin → Climbs tree i j kin.rise
  | behind {kin : Kin} : tree.Linked i j → tree.kinOf j i = some kin → Climbs tree i j (-kin.rise)

/-- Walks, by the number of their steps and the generations that they lead up. -/
inductive Ascent (tree : FamilyTree) : Nat → Nat → Int → Nat → Prop
  | nil (i : Nat) : Ascent tree i 0 0 i
  | cons {i j k n : Nat} {r s : Int} (step : tree.Climbs i j r) (rest : Ascent tree j n s k) :
      Ascent tree i (n + 1) (r + s) k

/-- All shortest walks from one person to another lead up alike. -/
def Even (tree : FamilyTree) (i j : Nat) : Prop :=
  ∀ n r s, (∀ m, tree.Walk i m j → n ≤ m) → tree.Ascent i n r j → tree.Ascent i n s j → r = s

/-- Everyone has a generation: one more than their children have, and the same as their spouse. -/
structure Graded (tree : FamilyTree) (level : Nat → Int) : Prop where
  father : ∀ i v, tree.vertex? i = some v → ∀ j ∈ v.father, level j = level i + 1
  mother : ∀ i v, tree.vertex? i = some v → ∀ j ∈ v.mother, level j = level i + 1
  spouse : ∀ i v, tree.vertex? i = some v → ∀ j ∈ v.spouse, level j = level i
  child : ∀ i v, tree.vertex? i = some v → ∀ j ∈ v.children, level j = level i - 1

theorem Mirrors.climbs_symm (mirror : tree.Mirrors g) (step : tree.Climbs i j r) :
    tree.Climbs j i (-r) := by
  cases step with
  | ahead link named => exact .behind (mirror.linked_symm link) named
  | @behind kin link named =>
    rw [Int.neg_neg]
    exact .ahead (mirror.linked_symm link) named

namespace Ascent

theorem snoc (ascent : tree.Ascent i n r j) (step : tree.Climbs j k s) :
    tree.Ascent i (n + 1) (r + s) k := by
  induction ascent with
  | nil i =>
    rw [Int.zero_add, ← Int.add_zero s]
    exact .cons step (.nil k)
  | cons first _ ih =>
    rw [Int.add_assoc]
    exact .cons first (ih step)

/-- A walk back leads down as far as the walk led up. -/
theorem reverse (mirror : tree.Mirrors g) (ascent : tree.Ascent i n r j) :
    tree.Ascent j n (-r) i := by
  induction ascent with
  | nil i => exact .nil i
  | cons step _ ih =>
    rw [Int.neg_add, Int.add_comm]
    exact ih.snoc (mirror.climbs_symm step)

end Ascent

/-! ### Readings of a step -/

theorem Mirrors.is_of_kinOf (mirror : tree.Mirrors g) (link : tree.Linked i j) {kin : Kin}
    (named : tree.kinOf i j = some kin) : tree.Is i j kin := by
  obtain ⟨kin', named', is⟩ := mirror.kinOf link
  rwa [Option.some.inj (named.symm.trans named')]

theorem Graded.is (graded : tree.Graded level) {kin : Kin} (is : tree.Is i j kin) :
    level j = level i + kin.rise := by
  obtain ⟨v, w, hv, -, is⟩ := is
  cases kin with
  | father => exact graded.father i v hv j is
  | mother => exact graded.mother i v hv j is
  | husband => exact (graded.spouse i v hv j is.1).trans (Int.add_zero _).symm
  | wife => exact (graded.spouse i v hv j is.1).trans (Int.add_zero _).symm
  | son => exact graded.child i v hv j is.1
  | daughter => exact graded.child i v hv j is.1

theorem Graded.climbs (graded : tree.Graded level) (mirror : tree.Mirrors g)
    (step : tree.Climbs i j r) : level j = level i + r := by
  cases step with
  | ahead link named => exact graded.is (mirror.is_of_kinOf link named)
  | behind link named =>
    have back := graded.is (mirror.is_of_kinOf (mirror.linked_symm link) named)
    omega

theorem Graded.ascent (graded : tree.Graded level) (mirror : tree.Mirrors g)
    (ascent : tree.Ascent i n r j) : r = level j - level i := by
  induction ascent with
  | nil i => omega
  | cons step _ ih =>
    have first := graded.climbs mirror step
    omega

theorem Graded.even (graded : tree.Graded level) (mirror : tree.Mirrors g) (i j : Nat) :
    tree.Even i j := fun _ _ _ _ ascent other =>
  (graded.ascent mirror ascent).trans (graded.ascent mirror other).symm

/-! ### The walks that are found -/

theorem generationDistance_eq_foldr (tree : FamilyTree) (a b : Nat) :
    tree.generationDistance a b = ((tree.kinship a b).map Kin.rise).foldr (· + ·) 0 := by
  rw [generationDistance, List.foldl_eq_foldr]

theorem Mirrors.ascent_of_leads (mirror : tree.Mirrors g) {steps : List (Nat × Nat)}
    (leads : Search.Leads tree.neighbours j i steps) :
    tree.Ascent i (tree.named steps).length
      (((tree.named steps).map Kin.rise).foldr (· + ·) 0) j := by
  induction leads with
  | nil => exact .nil j
  | @cons v u steps near _ ih =>
    have link := mirror.linked_symm (linked_iff.2 near)
    obtain ⟨kin, first, -⟩ := mirror.kinOf link
    have more : tree.named ((v, u) :: steps) = kin :: tree.named steps := by simp [named, first]
    rw [more, List.map_cons, List.foldr_cons]
    exact .cons (.ahead link first) ih

/-- The distance is what the walk leads up that names the kinship. -/
theorem Mirrors.ascent (mirror : tree.Mirrors g) (ha : a < tree.size) (walk : tree.Walk b n a) :
    tree.Ascent b (tree.kinship a b).length (tree.generationDistance a b) a := by
  have range : ∀ u < tree.size, ∀ v ∈ tree.neighbours u, v < tree.size :=
    fun u _ v near => mirror.linked_lt (linked_iff.2 near)
  have found := (Search.predecessors_wayBack range ha b).1
  rw [generationDistance_eq_foldr]
  exact mirror.ascent_of_leads (found n (Walk.search_iff.2 (walk.reverse mirror))).1

theorem Mirrors.generationDistance_apart (mirror : tree.Mirrors g) (ha : a < tree.size)
    (apart : ¬ ∃ n, tree.Walk b n a) : tree.generationDistance a b = 0 := by
  rw [generationDistance, (mirror.kinship_spec ha).2 apart]
  rfl

theorem Mirrors.generationDistance_opposite (mirror : tree.Mirrors g) (ha : a < tree.size)
    (hb : b < tree.size) (even : tree.Even b a) :
    tree.generationDistance a b = -tree.generationDistance b a := by
  by_cases connected : ∃ n, tree.Walk b n a
  · obtain ⟨n, walk⟩ := connected
    have up := mirror.ascent ha walk
    have down := (mirror.ascent hb (walk.reverse mirror)).reverse mirror
    have length : (tree.kinship b a).length = (tree.kinship a b).length :=
      Nat.le_antisymm (mirror.kinship_length_le hb ha) (mirror.kinship_length_le ha hb)
    rw [length] at down
    exact even _ _ _ (fun m other => ((mirror.kinship_spec ha).1 m other).2) up down
  · have apart : ¬ ∃ n, tree.Walk a n b := fun ⟨n, walk⟩ => connected ⟨n, walk.reverse mirror⟩
    rw [mirror.generationDistance_apart ha connected, mirror.generationDistance_apart hb apart]
    rfl

end FamilyTree

namespace Genealogy

/-- In the tree of every genealogy that edits reach, the distances between two persons are
opposite if all shortest walks between them lead up alike; and if everyone has a generation, they
are opposite, and they are the difference of the generations if a walk connects the two. -/
theorem Reachable.generationDistance_neg {g : Genealogy} (reached : g.Reachable) {a b : Nat}
    (ha : a < g.tree.1.size) (hb : b < g.tree.1.size) :
    (g.tree.1.Even b a →
        g.tree.1.generationDistance a b = -g.tree.1.generationDistance b a) ∧
      ∀ level, g.tree.1.Graded level →
        g.tree.1.generationDistance a b = -g.tree.1.generationDistance b a ∧
          ((∃ n, g.tree.1.Walk b n a) →
            g.tree.1.generationDistance a b = level a - level b) := by
  have mirror := reached.mirrors
  refine ⟨mirror.generationDistance_opposite ha hb, fun level graded => ⟨?_, ?_⟩⟩
  · exact mirror.generationDistance_opposite ha hb (graded.even mirror b a)
  · rintro ⟨n, walk⟩
    exact graded.ascent mirror (mirror.ascent ha walk)

/-- Bob stands a generation above his daughter, and she one below him. -/
theorem Reachable.generationDistance_neg_father :
    threesome.Reachable ∧ 1 < threesome.tree.1.size ∧ 2 < threesome.tree.1.size ∧
      threesome.tree.1.Even 2 1 ∧ threesome.tree.1.generationDistance 1 2 = 1 ∧
      threesome.tree.1.generationDistance 2 1 = -1 := by
  have reached : threesome.Reachable := .make threesome_accepted
  have mirror := reached.mirrors
  have graded : threesome.tree.1.Graded fun i => if i = 2 then 0 else 1 := by
    have vertices (P : Nat → Vertex → Prop)
        (each : ∀ e ∈ threesome.tree.1.vertices.zipIdx, P e.2 e.1) (i : Nat) (v : Vertex)
        (hv : threesome.tree.1.vertex? i = some v) : P i v :=
      each (v, i) (List.mem_zipIdx_iff_getElem?.2 hv)
    constructor <;> refine vertices _ ?_ <;> decide +kernel
  have even := graded.even mirror 2 1
  obtain ⟨opposite, -⟩ := reached.generationDistance_neg (a := 1) (b := 2) (by decide) (by decide)
  have up : threesome.tree.1.generationDistance 1 2 = 1 := by decide +kernel
  refine ⟨reached, by decide, by decide, even, up, ?_⟩
  have down := opposite even
  omega

/-- A father and his son who married a daughter and her mother, the father the daughter. -/
def crossed (day : Date) : Genealogy :=
  { people :=
      [{ id := 1, firstName := "Abe", lastName := "Lee", sex := .male, birth := day },
        { id := 2, firstName := "Ben", lastName := "Lee", sex := .male, birth := day },
        { id := 3, firstName := "Meg", lastName := "Ray", sex := .female, birth := day },
        { id := 4, firstName := "Dot", lastName := "Ray", sex := .female, birth := day }]
    bonds := [.parental 1 2, .parental 3 4, .marital 1 4 day, .marital 2 3 day] }

/-- The father stands a generation below the mother by the one marriage, and she a generation
below him by the other. -/
theorem crossed_generationDistance :
    ∃ g : Genealogy, g.Reachable ∧ 0 < g.tree.1.size ∧ 2 < g.tree.1.size ∧
      g.tree.1.generationDistance 0 2 = -1 ∧ g.tree.1.generationDistance 2 0 = -1 ∧
      g.tree.1.generationDistance 0 2 ≠ -g.tree.1.generationDistance 2 0 := by
  let day : Date := ⟨1950, 1, 2, by decide, by decide, by decide, by decide⟩
  let g := crossed day
  have accepted : Genealogy.make g.people g.bonds = .ok g := by cbv
  have there : g.tree.1.generationDistance 0 2 = -1 := by decide +kernel
  have back : g.tree.1.generationDistance 2 0 = -1 := by decide +kernel
  refine ⟨g, .make accepted, by decide, by decide, there, back, ?_⟩
  rw [there, back]
  decide

end Genealogy

/-! ### Levels that bonds respect -/

namespace Genealogy

/-- Levels of persons: parents stand one above their children, and those who are married stand on
the same. -/
structure IsLeveled (g : Genealogy) (level : PersonId → Int) : Prop where
  parental : ∀ parent child, .parental parent child ∈ g.bonds → level parent = level child + 1
  marital : ∀ first second wedding, .marital first second wedding ∈ g.bonds →
    level first = level second

end Genealogy

namespace FamilyTree
variable {tree : FamilyTree} {g : Genealogy} {i j : Nat} {p : Profile} {level : PersonId → Int}

/-- The level of the person at a vertex. -/
def levelAt (tree : FamilyTree) (level : PersonId → Int) (i : Nat) : Int :=
  ((tree.person? i).map fun p => level p.id).getD 0

theorem levelAt_of_person? (h : tree.person? i = some p) : tree.levelAt level i = level p.id := by
  rw [levelAt, h]
  rfl

/-- Levels of persons are generations of their vertices. -/
theorem Mirrors.graded (mirror : tree.Mirrors g) (leveled : g.IsLeveled level) :
    tree.Graded (tree.levelAt level) := by
  have at_vertex {i : Nat} {v : Vertex} (hv : tree.vertex? i = some v) :
      tree.levelAt level i = level v.profile.id :=
    levelAt_of_person? (by rw [person?, hv, Option.map_some])
  have below {i j : Nat} {v w : Vertex} (hv : tree.vertex? i = some v)
      (hw : tree.vertex? j = some w) (child : j ∈ v.children) :
      tree.levelAt level i = tree.levelAt level j + 1 := by
    rw [at_vertex hv, at_vertex hw]
    exact leveled.parental _ _ ((mirror.mem_children_iff hv hw).1 child)
  constructor
  case father =>
    intro i v hv j father
    obtain ⟨w, hw⟩ := mirror.exists_vertex ⟨v, hv, .inl father⟩
    exact below hw hv ((mirror.father j i w v hw hv).1 father).2
  case mother =>
    intro i v hv j mother
    obtain ⟨w, hw⟩ := mirror.exists_vertex ⟨v, hv, .inr (.inl mother)⟩
    exact below hw hv ((mirror.mother j i w v hw hv).1 mother).2
  case spouse =>
    intro i v hv j spouse
    obtain ⟨w, hw⟩ := mirror.exists_vertex ⟨v, hv, .inr (.inr (.inl spouse))⟩
    rw [at_vertex hv, at_vertex hw]
    obtain ⟨wedding, married | married⟩ := mirror.married_of_spouse hv hw spouse
    · exact (leveled.marital _ _ _ married).symm
    · exact leveled.marital _ _ _ married
  case child =>
    intro i v hv j child
    obtain ⟨w, hw⟩ := mirror.exists_vertex ⟨v, hv, .inr (.inr (.inr child))⟩
    have := below hv hw child
    omega

end FamilyTree

namespace Genealogy

/-- In a family with levels, the distance between two persons is the difference of theirs if a
walk connects the two, and none otherwise. -/
theorem Reachable.generationDistance_eq_level_sub {g : Genealogy} (reached : g.Reachable)
    {level : PersonId → Int} (leveled : g.IsLeveled level) {a b : Nat} {p q : Profile}
    (ha : g.tree.1.person? a = some p) (hb : g.tree.1.person? b = some q) :
    ((∃ n, g.tree.1.Walk b n a) → g.tree.1.generationDistance a b = level p.id - level q.id) ∧
      ((¬ ∃ n, g.tree.1.Walk b n a) → g.tree.1.generationDistance a b = 0) := by
  have mirror := reached.mirrors
  obtain ⟨v, hv, -⟩ := Option.map_eq_some_iff.1 ha
  have inside : a < g.tree.1.size := (List.getElem?_eq_some_iff.1 hv).1
  refine ⟨fun ⟨n, walk⟩ => ?_, mirror.generationDistance_apart inside⟩
  have climbed := (mirror.graded leveled).ascent mirror (mirror.ascent inside walk)
  rwa [FamilyTree.levelAt_of_person? ha, FamilyTree.levelAt_of_person? hb] at climbed

/-- Bob stands a level above his daughter Cyd, as Ann does. -/
theorem Reachable.generationDistance_eq_level_sub_daughter :
    threesome.Reachable ∧
      (threesome.IsLeveled fun id => if id = 3 then 0 else 1) ∧
      (∃ n, threesome.tree.1.Walk 2 n 1) ∧ threesome.tree.1.generationDistance 1 2 = 1 := by
  have reached : threesome.Reachable := .make threesome_accepted
  have leveled : threesome.IsLeveled fun id => if id = 3 then 0 else 1 := by
    constructor
    case parental =>
      intro parent child bond
      obtain ⟨rfl, rfl⟩ | ⟨rfl, rfl⟩ : parent = 1 ∧ child = 3 ∨ parent = 2 ∧ child = 3 := by
        simpa [threesome] using bond
      · rfl
      · rfl
    case marital =>
      intro first second wedding bond
      obtain ⟨rfl, rfl, -⟩ : first = 1 ∧ second = 2 ∧ _ := by simpa [threesome] using bond
      rfl
  have ha : threesome.tree.1.person? 1 = some (threesome.people.get ⟨1, by decide⟩) := by
    decide +kernel
  have hb : threesome.tree.1.person? 2 = some (threesome.people.get ⟨2, by decide⟩) := by
    decide +kernel
  have walk : threesome.tree.1.Walk 2 1 1 := .cons ⟨_, rfl, .inl rfl⟩ (.nil 1)
  exact ⟨reached, leveled, ⟨1, walk⟩,
    (reached.generationDistance_eq_level_sub leveled ha hb).1 ⟨1, walk⟩⟩

end Genealogy
end KinQuery
