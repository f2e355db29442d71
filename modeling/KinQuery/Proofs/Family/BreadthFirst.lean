import KinQuery.Family.Search
import Mathlib.Data.List.Perm.Subperm

/-! Breadth-first search finds shortest ways.

A depth is kept beside the search: that of a vertex is one more than the depth of the vertex
that discovered it. Vertices are visited in the order of their depths, and those that wait are
at most one step apart, so that no way to a vertex is shorter than its depth. -/
namespace KinQuery.Search

variable {neighbours : Nat → List Nat} {size start vertex : Nat} {found : List (Nat × Nat)}

/-- The vertices discovered, in their order. -/
def order (start : Nat) (found : List (Nat × Nat)) : List Nat :=
  start :: found.map (·.1)

/-- A walk over neighbours, by the number of its steps. -/
inductive Walk (neighbours : Nat → List Nat) : Nat → Nat → Nat → Prop
  | nil (i : Nat) : Walk neighbours i 0 i
  | snoc {i j k n : Nat} (walk : Walk neighbours i n j) (near : k ∈ neighbours j) :
      Walk neighbours i (n + 1) k

/-! ### Discovering -/

theorem lookup_isSome_iff {v : Nat} : (found.lookup v).isSome ↔ v ∈ found.map (·.1) := by
  rw [← not_iff_not, Bool.not_eq_true, Option.isSome_eq_false_iff, Option.isNone_iff_eq_none,
    List.lookup_eq_none_iff]
  simp only [List.mem_map, not_exists, not_and, bne_iff_ne]
  exact ⟨fun apart e he same => apart e he same.symm, fun apart e he same => apart e he same.symm⟩

theorem mem_of_lookup {v u : Nat} (here : found.lookup v = some u) : (v, u) ∈ found := by
  obtain ⟨before, after, rfl, -⟩ := List.lookup_eq_some_iff.1 here
  simp

/-- A vertex discovers those of its neighbours that were not, each once. -/
theorem discover_eq (start vertex : Nat) (ns : List Nat) (found : List (Nat × Nat)) :
    ∃ news : List Nat, discover start vertex ns found = found ++ news.map (·, vertex) ∧
      (∀ w ∈ news, w ∈ ns ∧ w ∉ order start found) ∧ news.Nodup ∧
      ∀ w ∈ ns, w ∈ order start found ∨ w ∈ news := by
  induction ns generalizing found with
  | nil => exact ⟨[], by simp [discover], by simp, by simp, by simp⟩
  | cons n ns ih =>
    rw [discover]
    split
    · rename_i known
      have member : n ∈ order start found := by
        rw [Bool.or_eq_true, decide_eq_true_eq, lookup_isSome_iff] at known
        exact List.mem_cons.2 known
      obtain ⟨news, same, fresh, nodup, all⟩ := ih found
      refine ⟨news, same, fun w hw => ⟨List.mem_cons_of_mem n (fresh w hw).1, (fresh w hw).2⟩,
        nodup, fun w hw => ?_⟩
      rcases List.mem_cons.1 hw with rfl | hw
      · exact .inl member
      · exact all w hw
    · rename_i unknown
      have fresh' : n ∉ order start found := by
        rw [Bool.or_eq_true, decide_eq_true_eq, lookup_isSome_iff] at unknown
        exact fun member => unknown (List.mem_cons.1 member)
      obtain ⟨news, same, fresh, nodup, all⟩ := ih (found ++ [(n, vertex)])
      have more (w : Nat) : w ∈ order start (found ++ [(n, vertex)]) ↔
          w ∈ order start found ∨ w = n := by
        simp [order, or_assoc]
      refine ⟨n :: news, by simp [same], fun w hw => ?_, ?_, fun w hw => ?_⟩
      · rcases List.mem_cons.1 hw with rfl | hw
        · exact ⟨List.mem_cons_self, fresh'⟩
        · exact ⟨List.mem_cons_of_mem n (fresh w hw).1,
            fun old => (fresh w hw).2 ((more w).2 (.inl old))⟩
      · exact List.nodup_cons.2 ⟨fun again => (fresh n again).2 ((more n).2 (.inr rfl)), nodup⟩
      · rcases List.mem_cons.1 hw with rfl | hw
        · exact .inr List.mem_cons_self
        · rcases all w hw with old | new
          · rcases (more w).1 old with old | rfl
            · exact .inl old
            · exact .inr List.mem_cons_self
          · exact .inr (List.mem_cons_of_mem n new)

/-! ### Visiting -/

/-- What holds between two visits, `depth` being the depths of the vertices discovered. -/
structure Inv (neighbours : Nat → List Nat) (size start : Nat) (depth : Nat → Nat)
    (visited queue : List Nat) (found : List (Nat × Nat)) : Prop where
  order : order start found = visited ++ queue
  nodup : (Search.order start found).Nodup
  inside : ∀ v ∈ Search.order start found, v < size
  zero : depth start = 0
  step : ∀ v u, (v, u) ∈ found → v ∈ neighbours u ∧ u ∈ Search.order start found ∧ depth v = depth u + 1
  closed : ∀ u ∈ visited, ∀ v ∈ neighbours u, v ∈ Search.order start found ∧ depth v ≤ depth u + 1
  sorted : ((Search.order start found).map depth).Pairwise (· ≤ ·)
  near : ∀ u ∈ queue, ∀ v ∈ Search.order start found, depth v ≤ depth u + 1
  few : ∀ v ∈ Search.order start found, depth v ≤ found.length

variable {depth : Nat → Nat} {visited queue : List Nat}

theorem Inv.init (inside : start < size) : Inv neighbours size start (fun _ => 0) [] [start] [] where
  order := rfl
  nodup := by simp [Search.order]
  inside := by simpa [Search.order] using inside
  zero := rfl
  step := by simp
  closed := by simp
  sorted := by simp [Search.order]
  near := by simp
  few := by simp

theorem order_append (news : List Nat) :
    Search.order start (found ++ news.map (·, vertex)) = Search.order start found ++ news := by
  simp [Search.order, Function.comp_def]

/-- The depths after a visit: whatever it discovers is one step deeper than the vertex visited. -/
def deepen (depth : Nat → Nat) (vertex : Nat) (news : List Nat) (v : Nat) : Nat :=
  if v ∈ news then depth vertex + 1 else depth v

theorem deepen_of_mem {news : List Nat} {v : Nat} (hv : v ∈ news) :
    deepen depth vertex news v = depth vertex + 1 :=
  if_pos hv

theorem deepen_of_order {news : List Nat} (fresh : ∀ w ∈ news, w ∉ Search.order start found)
    {v : Nat} (hv : v ∈ Search.order start found) : deepen depth vertex news v = depth v :=
  if_neg fun new => fresh v new hv

/-- The vertices that wait are no less deep than the one that is visited before them. -/
theorem Inv.depth_le_of_mem_queue
    (inv : Inv neighbours size start depth visited (vertex :: queue) found) {u : Nat}
    (hu : u ∈ queue) : u ∈ Search.order start found ∧ depth vertex ≤ depth u := by
  have sorted := inv.sorted
  rw [inv.order] at sorted ⊢
  have tail := (List.pairwise_append.1 (List.map_append .. ▸ sorted)).2.1
  exact ⟨by simp [hu], List.rel_of_pairwise_cons tail (List.mem_map_of_mem hu)⟩

/-- Nothing is more than one step deeper than the vertex visited. -/
theorem Inv.deepen_le (inv : Inv neighbours size start depth visited (vertex :: queue) found)
    {news : List Nat} (fresh : ∀ w ∈ news, w ∉ Search.order start found) {v : Nat}
    (hv : v ∈ Search.order start found ++ news) :
    deepen depth vertex news v ≤ depth vertex + 1 := by
  rcases List.mem_append.1 hv with hv | hv
  · rw [deepen_of_order fresh hv]
    exact inv.near vertex List.mem_cons_self v hv
  · exact Nat.le_of_eq (deepen_of_mem hv)

/-- One visit. The vertices it discovers are one step deeper than the one visited, and nothing
discovered before is deeper than that. -/
theorem Inv.visit (range : ∀ u < size, ∀ v ∈ neighbours u, v < size)
    (inv : Inv neighbours size start depth visited (vertex :: queue) found) :
    ∃ news, discover start vertex (neighbours vertex) found = found ++ news.map (·, vertex) ∧
      ∃ depth', Inv neighbours size start depth' (visited ++ [vertex]) (queue ++ news)
        (discover start vertex (neighbours vertex) found) := by
  obtain ⟨news, same, discovered, nodup, all⟩ :=
    discover_eq start vertex (neighbours vertex) found
  have fresh (w : Nat) (hw : w ∈ news) := (discovered w hw).2
  have here : vertex ∈ Search.order start found := by rw [inv.order]; simp
  have old {v : Nat} (hv : v ∈ Search.order start found) :
      deepen depth vertex news v = depth v := deepen_of_order fresh hv
  refine ⟨news, same, deepen depth vertex news, ?_⟩
  rw [same]
  constructor
  case order => rw [order_append, inv.order]; simp
  case nodup =>
    rw [order_append]
    exact List.nodup_append.2 ⟨inv.nodup, nodup, fun v hv w hw same => fresh w hw (same ▸ hv)⟩
  case inside =>
    intro v hv
    rw [order_append] at hv
    rcases List.mem_append.1 hv with hv | hv
    · exact inv.inside v hv
    · exact range vertex (inv.inside vertex here) v (discovered v hv).1
  case zero => rw [old List.mem_cons_self]; exact inv.zero
  case step =>
    intro v u member
    rw [order_append]
    rcases List.mem_append.1 member with member | member
    · obtain ⟨near, hu, deeper⟩ := inv.step v u member
      have hv : v ∈ Search.order start found := List.mem_cons_of_mem _ (List.mem_map_of_mem member)
      exact ⟨near, List.mem_append_left _ hu, by rw [old hv, old hu, deeper]⟩
    · obtain ⟨w, hw, pair⟩ := List.mem_map.1 member
      cases pair
      exact ⟨(discovered v hw).1, List.mem_append_left _ here,
        by rw [deepen_of_mem hw, old here]⟩
  case closed =>
    intro u hu v near
    rw [order_append]
    rcases List.mem_append.1 hu with hu | hu
    · obtain ⟨hv, deep⟩ := inv.closed u hu v near
      have hu' : u ∈ Search.order start found := by rw [inv.order]; exact List.mem_append_left _ hu
      exact ⟨List.mem_append_left _ hv, by rw [old hv, old hu']; exact deep⟩
    · obtain rfl := List.mem_singleton.1 hu
      have hv := List.mem_append.2 (all v near)
      exact ⟨hv, by rw [old here]; exact inv.deepen_le fresh hv⟩
  case sorted =>
    rw [order_append, List.map_append]
    refine List.pairwise_append.2 ⟨?_, ?_, ?_⟩
    · rw [List.map_congr_left fun v hv => old hv]
      exact inv.sorted
    · rw [List.map_congr_left fun v hv => deepen_of_mem hv]
      simp
    · intro d hd e he
      obtain ⟨v, hv, rfl⟩ := List.mem_map.1 hd
      obtain ⟨w, hw, rfl⟩ := List.mem_map.1 he
      rw [deepen_of_mem hw]
      exact inv.deepen_le fresh (List.mem_append_left _ hv)
  case near =>
    intro u hu v hv
    rw [order_append] at hv
    refine Nat.le_trans (inv.deepen_le fresh hv) (Nat.succ_le_succ ?_)
    rcases List.mem_append.1 hu with hu | hu
    · obtain ⟨hu, deeper⟩ := inv.depth_le_of_mem_queue hu
      rw [old hu]
      exact deeper
    · rw [deepen_of_mem hu]
      exact Nat.le_succ _
  case few =>
    intro v hv
    rw [order_append] at hv
    rw [List.length_append]
    rcases List.mem_append.1 hv with hv | hv
    · rw [old hv]
      exact Nat.le_add_right_of_le (inv.few v hv)
    · rw [deepen_of_mem hv, List.length_map]
      exact Nat.add_le_add (inv.few vertex here) (List.length_pos_of_mem hv)

/-- All visits. A vertex is visited once, so there are never more visits than vertices. -/
theorem Inv.visits (range : ∀ u < size, ∀ v ∈ neighbours u, v < size) {visits : Nat}
    (inv : Inv neighbours size start depth visited queue found)
    (enough : size ≤ visits + visited.length) :
    ∃ depth' visited', Inv neighbours size start depth' visited' []
      (Search.visit neighbours start visits queue found) := by
  induction visits generalizing depth visited queue found with
  | zero =>
    have fits : (Search.order start found).length ≤ size := by
      have subset : Search.order start found ⊆ List.range size :=
        fun v hv => List.mem_range.2 (inv.inside v hv)
      simpa using (List.subperm_of_subset inv.nodup subset).length_le
    rw [inv.order, List.length_append] at fits
    obtain rfl : queue = [] := List.eq_nil_of_length_eq_zero (by omega)
    exact ⟨depth, visited, inv⟩
  | succ visits ih =>
    cases queue with
    | nil => exact ⟨depth, visited, inv⟩
    | cons vertex queue =>
      obtain ⟨news, same, depth', inv'⟩ := inv.visit range
      rw [Search.visit]
      have pending : ((discover start vertex (neighbours vertex) found).drop found.length).map (·.1) =
          news := by
        simp [same, Function.comp_def]
      rw [pending]
      exact ih inv' (by simp; omega)

theorem predecessors_inv (range : ∀ u < size, ∀ v ∈ neighbours u, v < size) (inside : start < size) :
    ∃ depth visited, Inv neighbours size start depth visited []
      (predecessors neighbours size start) := by
  rw [predecessors, if_pos inside]
  exact (Inv.init inside).visits range (Nat.le_add_right _ _)

/-! ### Ways back -/

/-- Steps from a vertex to a goal. Each goes from a vertex to one that has it as a neighbour. -/
inductive Leads (neighbours : Nat → List Nat) (goal : Nat) : Nat → List (Nat × Nat) → Prop
  | nil : Leads neighbours goal goal []
  | cons {v u : Nat} {steps : List (Nat × Nat)} (near : v ∈ neighbours u)
      (rest : Leads neighbours goal u steps) : Leads neighbours goal v ((v, u) :: steps)

/-- A vertex at the end of a walk is discovered, and no deeper than the walk is long. -/
theorem Inv.walk (inv : Inv neighbours size start depth visited [] found) {n v : Nat}
    (walk : Walk neighbours start n v) : v ∈ Search.order start found ∧ depth v ≤ n := by
  induction walk with
  | nil => exact ⟨List.mem_cons_self, Nat.le_of_eq inv.zero⟩
  | snoc walk near ih =>
    obtain ⟨member, short⟩ := ih
    rw [inv.order, List.append_nil] at member
    obtain ⟨member', deep⟩ := inv.closed _ member _ near
    exact ⟨member', Nat.le_trans deep (Nat.succ_le_succ short)⟩

theorem Inv.lookup_start (inv : Inv neighbours size start depth visited queue found) :
    found.lookup start = none := by
  have apart : start ∉ found.map (·.1) := (List.nodup_cons.1 inv.nodup).1
  rwa [← lookup_isSome_iff, Bool.not_eq_true, Option.isSome_eq_false_iff,
    Option.isNone_iff_eq_none] at apart

/-- A vertex that was discovered is the start, or has been discovered by one less deep. -/
theorem Inv.cases (inv : Inv neighbours size start depth visited queue found) {v : Nat}
    (member : v ∈ Search.order start found) :
    v = start ∨ ∃ u, found.lookup v = some u ∧ v ∈ neighbours u ∧
      u ∈ Search.order start found ∧ depth v = depth u + 1 := by
  refine (List.mem_cons.1 member).imp id fun later => ?_
  obtain ⟨u, hu⟩ := Option.isSome_iff_exists.1 (lookup_isSome_iff.2 later)
  exact ⟨u, hu, inv.step v u (mem_of_lookup hu)⟩

/-- The way back from a vertex that was discovered has as many steps as it is deep. -/
theorem Inv.wayBack (inv : Inv neighbours size start depth visited queue found) {steps v : Nat}
    (member : v ∈ Search.order start found) (enough : depth v ≤ steps) :
    Leads neighbours start v (wayBack found steps v) ∧
      (wayBack found steps v).length = depth v := by
  induction steps generalizing v with
  | zero =>
    rcases inv.cases member with rfl | ⟨u, -, -, -, deeper⟩
    · exact ⟨.nil, inv.zero.symm⟩
    · omega
  | succ steps ih =>
    rw [Search.wayBack]
    rcases inv.cases member with rfl | ⟨u, hu, near, member', deeper⟩
    · rw [inv.lookup_start]
      exact ⟨.nil, inv.zero.symm⟩
    · obtain ⟨rest, length⟩ := ih member' (by omega)
      rw [hu]
      exact ⟨.cons near rest, by simp [length, deeper]⟩

theorem Leads.walk {v : Nat} {steps : List (Nat × Nat)} (leads : Leads neighbours start v steps) :
    Walk neighbours start steps.length v := by
  induction leads with
  | nil => exact .nil start
  | cons near _ ih => exact .snoc ih near

/-- The way back from every vertex that some walk reaches is a walk as short as any. From other
vertices there is none. -/
theorem predecessors_wayBack (range : ∀ u < size, ∀ v ∈ neighbours u, v < size)
    (inside : start < size) (v : Nat) :
    let found := predecessors neighbours size start
    let steps := wayBack found found.length v
    (∀ n, Walk neighbours start n v → Leads neighbours start v steps ∧ steps.length ≤ n) ∧
      ((¬ ∃ n, Walk neighbours start n v) → steps = []) := by
  obtain ⟨depth, visited, inv⟩ := predecessors_inv range inside
  intro found steps
  have discovered (member : v ∈ order start found) :
      Leads neighbours start v steps ∧ steps.length = depth v :=
    inv.wayBack member (inv.few v member)
  refine ⟨fun n walk => ?_, fun apart => ?_⟩
  · obtain ⟨member, short⟩ := inv.walk walk
    exact ⟨(discovered member).1, (discovered member).2 ▸ short⟩
  · have unknown : found.lookup v = none := by
      by_contra known
      have later := lookup_isSome_iff.1 (Option.isSome_iff_ne_none.2 known)
      exact apart ⟨_, (discovered (List.mem_cons_of_mem _ later)).1.walk⟩
    change wayBack found found.length v = []
    cases found.length with
    | zero => rfl
    | succ length => rw [wayBack, unknown]

end KinQuery.Search
