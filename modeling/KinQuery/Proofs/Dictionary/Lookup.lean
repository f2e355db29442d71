import KinQuery.Proofs.Dictionary.Growth
import KinQuery.Proofs.Dictionary.Key

/-! Which entry names a chain: the last one added, of those that stand for the chain. -/
namespace KinQuery.Dictionary

variable {d e : Dictionary} {key name : String} {chain : List String}

/-- The entry as a dictionary keeps it. -/
def normalEntry (key name : String) : String × String :=
  (normalKey key, Text.trimmed name)

/-- The chains of an entry, each with the name. -/
def chainsOf (entry : String × String) : List (List String × String) :=
  (expand (keyTerms entry.1)).map (·, entry.2)

theorem withEntry_chains (d : Dictionary) (key name : String) :
    (d.withEntry key name).chains = chainsOf (normalEntry key name) ++ d.chains := by
  simp [withEntry, chainsOf, normalEntry]

/-- Whether an entry stands for a chain. -/
def covers (chain : List String) (entry : String × String) : Bool :=
  (expand (keyTerms entry.1)).contains chain

/-- The name that the last of some entries gives to a chain. -/
def lastName (entries : List (String × String)) (chain : List String) : Option String :=
  ((entries.filter (covers chain)).getLast?).map (·.2)

theorem lookup_chainsOf (entry : String × String) :
    (chainsOf entry).lookup chain = if covers chain entry then some entry.2 else none := by
  unfold chainsOf covers
  induction expand (keyTerms entry.1) with
  | nil => rfl
  | cons first chains ih =>
    rw [List.map_cons, List.lookup_cons, List.contains_cons]
    cases h : chain == first with
    | true => simp
    | false => simpa using ih

theorem lastName_append (entries : List (String × String)) (entry : String × String) :
    lastName (entries ++ [entry]) chain =
      if covers chain entry then some entry.2 else lastName entries chain := by
  unfold lastName
  rw [List.filter_append]
  split
  · rename_i h
    simp [h]
  · rename_i h
    simp [h]

theorem lookup_flatMap_chainsOf (entries : List (String × String)) :
    (entries.reverse.flatMap chainsOf).lookup chain = lastName entries chain := by
  induction entries using List.reverseRecOn with
  | nil => rfl
  | append_singleton entries entry ih =>
    rw [List.reverse_append, List.reverse_singleton, List.singleton_append, List.flatMap_cons,
      List.lookup_append, ih, lookup_chainsOf, lastName_append]
    split <;> simp

/-! ### Shortening -/

/-- Chains are shortened by their names alone. -/
theorem namedStart_congr (same : ∀ chain, d.get? chain = e.get? chain) (chain : List String)
    (length : Nat) : d.namedStart chain length = e.namedStart chain length := by
  induction length with
  | zero => rfl
  | succ length ih =>
    cases length with
    | zero => rfl
    | succ length => rw [namedStart, namedStart, same, ih]

theorem longestStretch_congr (same : ∀ chain, d.get? chain = e.get? chain)
    (chain : List String) : d.longestStretch chain = e.longestStretch chain := by
  induction chain with
  | nil => rfl
  | cons term terms ih => rw [longestStretch, longestStretch, namedStart_congr same, ih]

theorem shorten_of_none (h : d.longestStretch chain = none) : d.shorten chain = chain := by
  rw [shorten]
  split
  · rfl
  · rename_i stretch hstretch
    rw [h] at hstretch
    cases hstretch

theorem shorten_of_some {stretch : Stretch} (h : d.longestStretch chain = some stretch) :
    d.shorten chain = d.shorten (chain.take stretch.start) ++
      stretch.name :: d.shorten (chain.drop (stretch.start + stretch.length)) := by
  rw [shorten]
  split
  · rename_i hnone
    rw [h] at hnone
    cases hnone
  · rename_i other hother
    rw [h] at hother
    cases hother
    rfl

theorem shorten_congr (same : ∀ chain, d.get? chain = e.get? chain) (chain : List String) :
    d.shorten chain = e.shorten chain := by
  induction chain using shorten.induct d with
  | case1 chain whole =>
    rw [shorten_of_none whole, shorten_of_none (longestStretch_congr same chain ▸ whole)]
  | case2 chain stretch named first second =>
    have named' : e.longestStretch chain = some stretch := longestStretch_congr same chain ▸ named
    rw [shorten_of_some named, shorten_of_some named', first, second]

/-! ### The terms of a shortened chain -/

theorem namedStart_named {length n : Nat} (h : d.namedStart chain length = some (n, name)) :
    ∃ part, d.get? part = some name := by
  induction length with
  | zero => simp [namedStart] at h
  | succ length ih =>
    cases length with
    | zero => simp [namedStart] at h
    | succ length =>
      rw [namedStart] at h
      split at h
      · rename_i found
        cases h
        exact ⟨_, found⟩
      · exact ih h

theorem longestStretch_named {stretch : Stretch} (h : d.longestStretch chain = some stretch) :
    ∃ part, d.get? part = some stretch.name := by
  induction chain generalizing stretch with
  | nil => simp [longestStretch] at h
  | cons term terms ih =>
    have later {s : Stretch} (hs : (d.longestStretch terms).map
        (fun s => ({ s with start := s.start + 1 } : Stretch)) = some s) :
        ∃ part, d.get? part = some s.name := by
      obtain ⟨t, ht, rfl⟩ := Option.map_eq_some_iff.1 hs
      have found : ∃ part, d.get? part = some t.name := ih ht
      exact found
    simp only [longestStretch] at h
    split at h
    · exact later h
    · rename_i found
      split at h
      · rename_i hlater
        split at h
        · cases h
          exact later hlater
        · cases h
          exact namedStart_named found
      · cases h
        exact namedStart_named found

/-- A term of a shortened chain was there before or is the name of some chain. -/
theorem mem_of_mem_shorten {term : String} (h : term ∈ d.shorten chain) :
    term ∈ chain ∨ ∃ part, d.get? part = some term := by
  induction chain using shorten.induct d with
  | case1 chain whole =>
    rw [shorten_of_none whole] at h
    exact .inl h
  | case2 chain stretch named first second =>
    rw [shorten_of_some named, List.mem_append, List.mem_cons] at h
    rcases h with h | rfl | h
    · exact (first h).imp_left List.mem_of_mem_take
    · exact .inr (longestStretch_named named)
    · exact (second h).imp_left List.mem_of_mem_drop

end KinQuery.Dictionary
