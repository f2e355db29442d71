import KinQuery.Proofs.Family.Chain
import KinQuery.Proofs.Range.Checked

/-! Searching a family tree by positions.

Discovered vertices are marked in a bitmap of 32 bits, so that in a tree of more vertices than
that some are taken for others. Even then no vertex is visited twice and none outside the tree
is; and with fewer vertices the search is the one that keeps the vertices themselves. -/
namespace KinQuery.Range

open Search (order)

/-- The mark of a vertex. -/
def mark (i : Nat) : Nat :=
  i % 2 ^ 32

/-- A search under way: the marks of the discovered vertices, those that wait for a visit, and
the predecessor of each. -/
structure Frontier where
  marks : List Nat
  queue : List Nat
  found : List (Nat × Nat)

/-- Discovers a neighbour of a vertex, unless its mark is there. -/
def discover (vertex : Nat) (f : Frontier) (neighbour : Nat) : Frontier :=
  if mark neighbour ∈ f.marks then f
  else ⟨mark neighbour :: f.marks, f.queue ++ [neighbour], f.found ++ [(neighbour, vertex)]⟩

/-- Visits the vertices that wait. There is no outcome if `visits` are not enough for them. -/
def visit (tree : FamilyTree) : (visits : Nat) → Frontier → Option (List (Nat × Nat))
  | _, ⟨_, [], found⟩ => some found
  | 0, ⟨_, _ :: _, _⟩ => none
  | visits + 1, ⟨marks, vertex :: queue, found⟩ => do
    let v ← tree.vertices[vertex]?
    visit tree visits (v.neighbours.foldl (discover vertex) ⟨marks, queue, found⟩)

/-- The predecessor of each vertex that a search discovers. -/
def search (tree : FamilyTree) (start : Nat) : Option (List (Nat × Nat)) :=
  if start < tree.size then visit tree tree.size ⟨[mark start], [start], []⟩ else some []

/-- Names the steps back to where a search began. There is no outcome if there are as many as
`steps`, or if one of them is between vertices that are not there. -/
def wayBack (tree : FamilyTree) (found : List (Nat × Nat)) :
    (steps : Nat) → Nat → Option (List Kin)
  | 0, _ => none
  | steps + 1, vertex =>
    match found.lookup vertex with
    | none => some []
    | some previous => do
      let kin ← tree.kinOf vertex previous
      let rest ← wayBack tree found steps previous
      some (kin :: rest)

/-- How `a` is related to `b`. -/
def kinship (tree : FamilyTree) (a b : Nat) : Option (List Kin) := do
  let found ← search tree a
  wayBack tree found (found.length + 1) b

/-- The generations that a chain leads up, added one by one. -/
def rises (chain : List Kin) : Option Int :=
  chain.foldlM (fun total kin => signed 64 (total + kin.rise)) 0

/-! ### Visits -/

variable {tree : FamilyTree} {size start vertex : Nat} {f : Frontier} {visited : List Nat}
  {depth : Nat → Nat}

/-- What holds of a search between two visits, and while a vertex is visited. -/
structure Inside (size start : Nat) (depth : Nat → Nat) (visited : List Nat) (f : Frontier) :
    Prop where
  order : order start f.found = visited ++ f.queue
  marks : ∀ m, m ∈ f.marks ↔ ∃ v ∈ Search.order start f.found, mark v = m
  nodup : (Search.order start f.found).Nodup
  inside : ∀ v ∈ Search.order start f.found, v < size
  step : ∀ v u, (v, u) ∈ f.found → u ∈ Search.order start f.found ∧ depth v = depth u + 1
  few : ∀ v ∈ Search.order start f.found, depth v ≤ f.found.length

theorem Inside.init (within : start < size) :
    Inside size start (fun _ => 0) [] ⟨[mark start], [start], []⟩ where
  order := rfl
  marks := by simp [Search.order, eq_comm]
  nodup := by simp [Search.order]
  inside := by simpa [Search.order] using within
  step := by simp
  few := by simp

theorem Inside.length_le (inside : Inside size start depth visited f) :
    f.found.length + 1 ≤ size := by
  have subset : Search.order start f.found ⊆ List.range size :=
    fun v hv => List.mem_range.2 (inside.inside v hv)
  simpa [Search.order] using (List.subperm_of_subset inside.nodup subset).length_le

/-- In a tree that the bitmap has marks for, a vertex is marked exactly if it was discovered. -/
theorem Inside.mark_iff (inside : Inside size start depth visited f) (small : size ≤ 2 ^ 32)
    {n : Nat} (within : n < size) :
    mark n ∈ f.marks ↔ n ∈ Search.order start f.found := by
  have own {v : Nat} (lt : v < size) : mark v = v := Nat.mod_eq_of_lt (by omega)
  rw [inside.marks]
  refine ⟨fun ⟨v, member, same⟩ => ?_, fun member => ⟨n, member, rfl⟩⟩
  rw [own (inside.inside v member), own within] at same
  exact same ▸ member

/-- What a search is after one more vertex may have been discovered. -/
theorem Inside.discover (inside : Inside size start depth visited f) (here : vertex ∈ visited)
    {n : Nat} (within : n < size) :
    ∃ depth' news, Inside size start depth' visited (Range.discover vertex f n) ∧
      (Range.discover vertex f n).queue = f.queue ++ news ∧
      (Range.discover vertex f n).found = f.found ++ news.map (·, vertex) := by
  unfold Range.discover
  split
  · exact ⟨depth, [], inside, by simp, by simp⟩
  · rename_i unmarked
    have fresh : ∀ w ∈ [n], w ∉ Search.order start f.found :=
      List.forall_mem_singleton.2 fun member => unmarked ((inside.marks _).2 ⟨n, member, rfl⟩)
    have grown : Search.order start (f.found ++ [(n, vertex)]) =
        Search.order start f.found ++ [n] := Search.order_append [n]
    have known : vertex ∈ Search.order start f.found := by simp [inside.order, here]
    have other {v : Nat} (member : v ∈ Search.order start f.found) : v ≠ n := by
      rintro rfl
      exact fresh v List.mem_cons_self member
    have old {v : Nat} (member : v ∈ Search.order start f.found) :
        Search.deepen depth vertex [n] v = depth v := Search.deepen_of_order fresh member
    have new : Search.deepen depth vertex [n] n = depth vertex + 1 :=
      Search.deepen_of_mem List.mem_cons_self
    refine ⟨Search.deepen depth vertex [n], [n], ?_, rfl, rfl⟩
    constructor
    case order => simp [grown, inside.order]
    case marks =>
      intro m
      simp only [grown, List.mem_cons, inside.marks, List.mem_append, List.not_mem_nil, or_false]
      constructor
      · rintro (rfl | ⟨v, member, rfl⟩)
        · exact ⟨n, .inr rfl, rfl⟩
        · exact ⟨v, .inl member, rfl⟩
      · rintro ⟨v, member | rfl, rfl⟩
        · exact .inr ⟨v, member, rfl⟩
        · exact .inl rfl
    case nodup =>
      rw [grown]
      exact List.nodup_append.2 ⟨inside.nodup, by simp, by simpa using fun v => other⟩
    case inside => simpa [grown, or_imp, forall_and] using And.intro inside.inside within
    case step =>
      intro v u member
      rw [grown]
      rcases List.mem_append.1 member with member | member
      · obtain ⟨hu, deeper⟩ := inside.step v u member
        have hv : v ∈ Search.order start f.found :=
          List.mem_cons_of_mem _ (List.mem_map_of_mem member)
        exact ⟨List.mem_append_left _ hu, by rw [old hv, old hu, deeper]⟩
      · obtain ⟨rfl, rfl⟩ := Prod.mk.inj (List.mem_singleton.1 member)
        exact ⟨List.mem_append_left _ known, by rw [new, old known]⟩
    case few =>
      intro v member
      rw [List.length_append, List.length_singleton]
      rcases List.mem_append.1 (grown ▸ member) with member | member
      · rw [old member]
        exact Nat.le_succ_of_le (inside.few v member)
      · obtain rfl := List.mem_singleton.1 member
        rw [new]
        exact Nat.succ_le_succ (inside.few vertex known)

/-- A visit. It discovers what the search discovers that keeps the vertices themselves. -/
theorem Inside.discoverAll {ns : List Nat} (here : vertex ∈ visited)
    (range : ∀ n ∈ ns, n < size) :
    ∀ {f : Frontier} {depth : Nat → Nat}, Inside size start depth visited f →
      ∃ depth' news, Inside size start depth' visited (ns.foldl (Range.discover vertex) f) ∧
        (ns.foldl (Range.discover vertex) f).queue = f.queue ++ news ∧
        (ns.foldl (Range.discover vertex) f).found = f.found ++ news.map (·, vertex) ∧
        (size ≤ 2 ^ 32 → Search.discover start vertex ns f.found =
          (ns.foldl (Range.discover vertex) f).found) := by
  induction ns with
  | nil => exact fun {f depth} inside => ⟨depth, [], inside, by simp, by simp, fun _ => rfl⟩
  | cons n ns ih =>
    intro f depth inside
    obtain ⟨within, rest⟩ := List.forall_mem_cons.1 range
    obtain ⟨depth₁, news₁, inside₁, queue₁, found₁⟩ := inside.discover here within
    obtain ⟨depth₂, news₂, inside₂, queue₂, found₂, same⟩ := ih rest inside₁
    rw [List.foldl_cons]
    refine ⟨depth₂, news₁ ++ news₂, inside₂, ?_, ?_, fun small => ?_⟩
    · rw [queue₂, queue₁, List.append_assoc]
    · rw [found₂, found₁, List.map_append, List.append_assoc]
    · rw [← same small, Search.discover]
      have known : (n = start || (f.found.lookup n).isSome) = true ↔ mark n ∈ f.marks := by
        rw [Bool.or_eq_true, decide_eq_true_eq, Search.lookup_isSome_iff,
          inside.mark_iff small within, Search.order, List.mem_cons]
      simp only [known, Range.discover]
      split <;> rfl

variable (links : ∀ i v, tree.vertex? i = some v → ∀ j ∈ v.neighbours, j < tree.size)
include links

theorem visit_spec {visits : Nat} :
    ∀ {f : Frontier} {depth : Nat → Nat} {visited : List Nat},
      Inside tree.size start depth visited f → tree.size ≤ visits + visited.length →
      ∃ found depth' visited' marks, visit tree visits f = some found ∧
        Inside tree.size start depth' visited' ⟨marks, [], found⟩ ∧
        (tree.size ≤ 2 ^ 32 →
          Search.visit tree.neighbours start visits f.queue f.found = found) := by
  induction visits with
  | zero =>
    rintro ⟨marks, queue, found⟩ depth visited inside enough
    have few := inside.length_le
    have length := congrArg List.length inside.order
    simp only [order, List.length_cons, List.length_map, List.length_append] at length few
    obtain rfl : queue = [] := List.eq_nil_of_length_eq_zero (by omega)
    exact ⟨found, depth, visited, marks, by rw [visit], inside, fun _ => rfl⟩
  | succ visits ih =>
    rintro ⟨marks, _ | ⟨vertex, queue⟩, found⟩ depth visited inside enough
    · exact ⟨found, depth, visited, marks, by rw [visit], inside, fun _ => rfl⟩
    · have within : vertex < tree.size := inside.inside vertex (by simp [inside.order])
      obtain ⟨v, hv⟩ : ∃ v, tree.vertices[vertex]? = some v :=
        ⟨_, List.getElem?_eq_getElem within⟩
      have popped : Inside tree.size start depth (visited ++ [vertex]) ⟨marks, queue, found⟩ :=
        { inside with order := by simpa using inside.order }
      obtain ⟨depth', news, inside', queue', found', same⟩ :=
        popped.discoverAll List.mem_concat_self (links vertex v hv)
      obtain ⟨all, depth'', visited', marks', run, done, exact'⟩ :=
        ih inside' (by rw [List.length_append, List.length_singleton]; omega)
      refine ⟨all, depth'', visited', marks', ?_, done, fun small => ?_⟩
      · rw [visit, hv]
        exact run
      · have near : tree.neighbours vertex = v.neighbours := by
          simp [FamilyTree.neighbours, FamilyTree.vertex?, hv]
        have waiting : ((found ++ news.map (·, vertex)).drop found.length).map (·.1) = news := by
          simp [Function.comp_def]
        rw [Search.visit, near, same small, ← exact' small, queue', found', waiting]

theorem search_spec (within : start < tree.size) :
    ∃ found depth visited marks, search tree start = some found ∧
      Inside tree.size start depth visited ⟨marks, [], found⟩ ∧
      (tree.size ≤ 2 ^ 32 → tree.search start = found) := by
  rw [search, if_pos within, FamilyTree.search, Search.predecessors, if_pos within]
  exact visit_spec links (.init within) (Nat.le_add_right _ _)

omit links

/-! ### Ways back -/

theorem exists_kinOf {i j : Nat} (hi : i < tree.size) (hj : j < tree.size) :
    ∃ kin, tree.kinOf i j = some kin := by
  have vertex : tree.vertex? i = some tree.vertices[i] := List.getElem?_eq_getElem hi
  have person : tree.person? j = some tree.vertices[j].profile := by
    rw [FamilyTree.person?, FamilyTree.vertex?, List.getElem?_eq_getElem hj, Option.map_some]
  rw [FamilyTree.kinOf, vertex, person]
  simp only [Option.bind_eq_bind, Option.bind_some]
  split
  · exact ⟨_, rfl⟩
  · split
    · exact ⟨_, rfl⟩
    · split <;> exact ⟨_, rfl⟩

/-- A way back ends after as many steps as its vertex is deep. -/
theorem Inside.wayBack (inside : Inside tree.size start depth visited f) {steps : Nat} :
    ∀ {v : Nat}, v ∈ Search.order start f.found → depth v < steps →
      ∃ chain, Range.wayBack tree f.found steps v = some chain ∧ chain.length ≤ depth v := by
  induction steps with
  | zero => exact fun _ enough => absurd enough (Nat.not_lt_zero _)
  | succ steps ih =>
    intro v member enough
    rw [Range.wayBack]
    cases found : f.found.lookup v with
    | none => exact ⟨[], rfl, Nat.zero_le _⟩
    | some u =>
      obtain ⟨hu, deeper⟩ := inside.step v u (Search.mem_of_lookup found)
      obtain ⟨kin, hkin⟩ := exists_kinOf (inside.inside v member) (inside.inside u hu)
      obtain ⟨chain, run, length⟩ := ih hu (by omega)
      refine ⟨kin :: chain, ?_, by rw [List.length_cons]; omega⟩
      simp only [hkin, run, Option.bind_eq_bind, Option.bind_some]

/-- A way back that can be named is named as the tree names it. -/
theorem wayBack_eq {found : List (Nat × Nat)} {steps : Nat} :
    ∀ {v : Nat} {chain : List Kin}, wayBack tree found (steps + 1) v = some chain →
      tree.named (Search.wayBack found steps v) = chain := by
  induction steps with
  | zero =>
    intro v chain run
    rw [wayBack] at run
    split at run
    · exact Option.some.inj run
    · simp [wayBack] at run
  | succ steps ih =>
    intro v chain run
    rw [wayBack] at run
    rw [Search.wayBack]
    split at run
    · rename_i none
      rw [none]
      exact Option.some.inj run
    · rename_i u found
      simp only [Option.bind_eq_bind, Option.bind_eq_some_iff] at run
      obtain ⟨kin, hkin, rest, hrest, same⟩ := run
      rw [found, ← Option.some.inj same, ← ih hrest]
      simp [FamilyTree.named, hkin]

/-- Two vertices of a tree are related by a chain that is no longer than the tree is large, and
that is the kinship of the two if every vertex has a mark of its own. -/
theorem kinship_spec (links : ∀ i v, tree.vertex? i = some v → ∀ j ∈ v.neighbours, j < tree.size)
    {a b : Nat} (within : a < tree.size) :
    ∃ chain, kinship tree a b = some chain ∧ chain.length ≤ tree.size ∧
      (tree.size ≤ 2 ^ 32 → chain = tree.kinship a b) := by
  obtain ⟨found, depth, visited, marks, run, inside, same⟩ := search_spec links within
  have few : found.length + 1 ≤ tree.size := inside.length_le
  obtain ⟨chain, back, length⟩ : ∃ chain, wayBack tree found (found.length + 1) b = some chain ∧
      chain.length ≤ found.length := by
    by_cases member : b ∈ order a found
    · obtain ⟨chain, back, length⟩ :=
        inside.wayBack member (Nat.lt_succ_of_le (inside.few b member))
      exact ⟨chain, back, Nat.le_trans length (inside.few b member)⟩
    · have unknown : found.lookup b = none := by
        by_contra known
        have later := Search.lookup_isSome_iff.1 (Option.isSome_iff_ne_none.2 known)
        exact member (List.mem_cons_of_mem _ later)
      exact ⟨[], by rw [wayBack, unknown], Nat.zero_le _⟩
  refine ⟨chain, ?_, by omega, fun small => ?_⟩
  · rw [kinship, run]
    exact back
  · rw [FamilyTree.kinship, same small]
    exact (wayBack_eq back).symm

/-! ### Generations -/

/-- Every step changes the sum by one at most, so a chain would have to be as long as the
largest numeral to lead out of range. -/
theorem rises_eq {chain : List Kin} (short : chain.length < 2 ^ 63) :
    rises chain = some ((chain.map Kin.rise).foldl (· + ·) 0) := by
  have steps (total : Int) (lower : -2 ^ 63 ≤ total - chain.length)
      (upper : total + chain.length < 2 ^ 63) :
      chain.foldlM (fun total kin => signed 64 (total + kin.rise)) total =
        some ((chain.map Kin.rise).foldl (· + ·) total) := by
    clear short
    induction chain generalizing total with
    | nil => rfl
    | cons kin chain ih =>
      have bound : -1 ≤ kin.rise ∧ kin.rise ≤ 1 := by cases kin <;> decide
      rw [List.length_cons] at lower upper
      rw [List.foldlM_cons, signed_eq (by omega) (by omega), Option.bind_eq_bind, Option.bind_some,
        List.map_cons, List.foldl_cons]
      exact ih (total + kin.rise) (by omega) (by omega)
  exact steps 0 (by omega) (by omega)

end KinQuery.Range
