import KinQuery.Proofs.Dictionary.Lookup

/-! Shortened chains, segment by segment.

A chain is cut greedily: the longest named stretch, the leftmost of several, becomes one segment,
and what comes before and after it is cut by the same rule. There is one way to do this, and a
shortened chain is written from it. -/
namespace KinQuery.Dictionary

variable {d : Dictionary} {chain terms : List String} {name : String}

/-! ### Stretches -/

/-- The part of a chain of a given length that begins at a position. -/
def part (chain : List String) (start length : Nat) : List String :=
  (chain.drop start).take length

/-- No two or more neighbouring terms have a name. -/
def Whole (d : Dictionary) (chain : List String) : Prop :=
  ∀ start length, 2 ≤ length → start + length ≤ chain.length →
    d.get? (part chain start length) = none

/-- A named stretch of a chain. No other is longer, and none as long begins further left. -/
structure Foremost (d : Dictionary) (chain : List String) (stretch : Stretch) : Prop where
  two_le : 2 ≤ stretch.length
  fits : stretch.start + stretch.length ≤ chain.length
  named : d.get? (part chain stretch.start stretch.length) = some stretch.name
  longest : ∀ start length, 2 ≤ length → start + length ≤ chain.length →
    d.get? (part chain start length) ≠ none →
      length < stretch.length ∨ (length = stretch.length ∧ stretch.start ≤ start)

theorem namedStart_eq_none {length : Nat} (h : d.namedStart chain length = none) {n : Nat}
    (two_le : 2 ≤ n) (le : n ≤ length) : d.get? (chain.take n) = none := by
  induction length with
  | zero => omega
  | succ length ih =>
    cases length with
    | zero => omega
    | succ length =>
      rw [namedStart] at h
      split at h
      · cases h
      · rename_i unnamed
        rcases Nat.lt_or_eq_of_le le with less | rfl
        · exact ih h (Nat.le_of_lt_succ less)
        · exact unnamed

theorem namedStart_eq_some {length n : Nat} (h : d.namedStart chain length = some (n, name)) :
    d.get? (chain.take n) = some name ∧
      ∀ m, n < m → m ≤ length → d.get? (chain.take m) = none := by
  induction length with
  | zero => simp [namedStart] at h
  | succ length ih =>
    cases length with
    | zero => simp [namedStart] at h
    | succ length =>
      rw [namedStart] at h
      split at h
      · rename_i found
        cases h
        exact ⟨found, fun m less le => by omega⟩
      · rename_i unnamed
        obtain ⟨found, longer⟩ := ih h
        refine ⟨found, fun m less le => ?_⟩
        rcases Nat.lt_or_eq_of_le le with below | rfl
        · exact longer m less (Nat.le_of_lt_succ below)
        · exact unnamed

/-- A stretch of a chain without its first term stays the foremost one of the whole chain if
those that begin with the first term are shorter. -/
theorem Foremost.later {term : String} {stretch : Stretch} (h : Foremost d terms stretch)
    (shorter : ∀ length, 2 ≤ length → length ≤ terms.length + 1 →
      d.get? ((term :: terms).take length) ≠ none → length < stretch.length) :
    Foremost d (term :: terms) { stretch with start := stretch.start + 1 } := by
  refine ⟨h.two_le, ?_, h.named, fun start length two_le fits named => ?_⟩
  · have := h.fits
    simp only [List.length_cons]
    omega
  · rw [List.length_cons] at fits
    cases start with
    | zero => exact .inl (shorter length two_le (by omega) named)
    | succ start =>
      have := h.longest start length two_le (by omega) named
      simp only
      omega

/-- A stretch at the beginning is the foremost one if those further right are no longer. -/
theorem foremost_zero {term : String} {length : Nat}
    (found : d.namedStart (term :: terms) (terms.length + 1) = some (length, name))
    (later : ∀ start other, 2 ≤ other → start + other ≤ terms.length →
      d.get? (part terms start other) ≠ none → other ≤ length) :
    Foremost d (term :: terms) ⟨0, length, name⟩ := by
  obtain ⟨two_le, le⟩ := namedStart_bounds found
  obtain ⟨named, longer⟩ := namedStart_eq_some found
  refine ⟨two_le, by simpa using le, named, fun start other two_le fits other_named => ?_⟩
  rw [List.length_cons] at fits
  cases start with
  | zero =>
    have : ¬ length < other := fun less => other_named (longer other less (by omega))
    simp only
    omega
  | succ start =>
    have := later start other two_le (by omega) other_named
    simp only
    omega

theorem longestStretch_spec (d : Dictionary) (chain : List String) :
    (d.longestStretch chain = none → Whole d chain) ∧
      ∀ stretch, d.longestStretch chain = some stretch → Foremost d chain stretch := by
  induction chain with
  | nil =>
    refine ⟨fun _ start length two_le fits => ?_, fun _ h => by cases h⟩
    simp only [List.length_nil] at fits
    omega
  | cons term terms ih =>
    obtain ⟨whole, foremost⟩ := ih
    simp only [longestStretch]
    cases hstart : d.namedStart (term :: terms) (terms.length + 1) with
    | none =>
      have unnamed (length : Nat) (two_le : 2 ≤ length) (le : length ≤ terms.length + 1) :=
        namedStart_eq_none hstart two_le le
      refine ⟨fun h start length two_le fits => ?_, fun stretch h => ?_⟩
      · rw [List.length_cons] at fits
        cases start with
        | zero => exact unnamed length two_le (by omega)
        | succ start =>
          exact whole (Option.map_eq_none_iff.1 h) start length two_le (by omega)
      · obtain ⟨stretch, hstretch, rfl⟩ := Option.map_eq_some_iff.1 h
        exact (foremost stretch hstretch).later fun length two_le le named =>
          absurd (unnamed length two_le le) named
    | some found =>
      obtain ⟨length, name⟩ := found
      cases hlater : d.longestStretch terms with
      | none =>
        refine ⟨fun h => ?_, fun stretch h => ?_⟩
        · cases h
        · cases h
          exact foremost_zero hstart fun start other two_le fits named =>
            absurd (whole hlater start other two_le fits) named
      | some stretch =>
        have rest := foremost stretch hlater
        have bounded (start other : Nat) (two_le : 2 ≤ other) (fits : start + other ≤ terms.length)
            (named : d.get? (part terms start other) ≠ none) : other ≤ stretch.length := by
          have := rest.longest start other two_le fits named
          omega
        simp only [Option.map_some]
        refine ⟨fun h => ?_, fun chosen h => ?_⟩
        · split at h <;> cases h
        · split at h
          · rename_i less
            cases h
            refine rest.later fun other two_le le named => ?_
            have : ¬ length < other := fun longer =>
              named ((namedStart_eq_some hstart).2 other longer le)
            omega
          · rename_i notLess
            cases h
            refine foremost_zero hstart fun start other two_le fits named => ?_
            have := bounded start other two_le fits named
            omega

/-! ### Segments -/

/-- A term that stays as it is, or a stretch that its name stands for. -/
inductive Segment where
  | kept (term : String)
  | replaced (stretch : List String) (name : String)

namespace Segment

/-- The terms of the chain that a segment covers. -/
def covered : Segment → List String
  | .kept term => [term]
  | .replaced stretch _ => stretch

/-- What is written for a segment. -/
def written : Segment → String
  | .kept term => term
  | .replaced _ name => name

end Segment

/-- The segments of a chain that is cut greedily. -/
inductive Segmented (d : Dictionary) : List String → List Segment → Prop
  | whole {chain : List String} : Whole d chain → Segmented d chain (chain.map .kept)
  | split {chain : List String} {stretch : Stretch} {before after : List Segment} :
      Foremost d chain stretch → Segmented d (chain.take stretch.start) before →
        Segmented d (chain.drop (stretch.start + stretch.length)) after →
          Segmented d chain
            (before ++ .replaced (part chain stretch.start stretch.length) stretch.name :: after)

/-- A chain is the part before a stretch, the stretch and the part after it. -/
theorem take_part_drop (chain : List String) (start length : Nat) :
    chain.take start ++ (part chain start length ++ chain.drop (start + length)) = chain := by
  rw [part, ← List.drop_drop, List.take_append_drop, List.take_append_drop]

theorem not_foremost_of_whole {stretch : Stretch} (whole : Whole d chain)
    (foremost : Foremost d chain stretch) : False := by
  have unnamed := whole stretch.start stretch.length foremost.two_le foremost.fits
  rw [foremost.named] at unnamed
  cases unnamed

/-- There is at most one foremost stretch. -/
theorem Foremost.unique {stretch other : Stretch} (h : Foremost d chain stretch)
    (h' : Foremost d chain other) : stretch = other := by
  have first := h.longest other.start other.length h'.two_le h'.fits (by simp [h'.named])
  have second := h'.longest stretch.start stretch.length h.two_le h.fits (by simp [h.named])
  have start : stretch.start = other.start := by omega
  have length : stretch.length = other.length := by omega
  have name : stretch.name = other.name := by
    have named := h.named
    rw [start, length, h'.named] at named
    exact (Option.some.inj named).symm
  cases stretch
  cases other
  simp_all

theorem longestStretch_of_whole (whole : Whole d chain) : d.longestStretch chain = none := by
  cases h : d.longestStretch chain with
  | none => rfl
  | some stretch => exact (not_foremost_of_whole whole ((longestStretch_spec d chain).2 _ h)).elim

theorem longestStretch_of_foremost {stretch : Stretch} (foremost : Foremost d chain stretch) :
    d.longestStretch chain = some stretch := by
  cases h : d.longestStretch chain with
  | none => exact (not_foremost_of_whole ((longestStretch_spec d chain).1 h) foremost).elim
  | some other => rw [foremost.unique ((longestStretch_spec d chain).2 other h)]

/-- What has no place for a segment lies before or after it. -/
theorem beside {segment : Segment} {first second before run after : List Segment}
    (notMem : segment ∉ run) (h : first ++ segment :: second = before ++ run ++ after) :
    (∃ rest, first = before ++ run ++ rest) ∨ ∃ rest, second = rest ++ run ++ after := by
  rcases List.append_eq_append_iff.1 h with ⟨rest, hrun, hsecond⟩ | ⟨rest, hfirst, -⟩
  · rcases List.cons_eq_append_iff.1 hsecond with ⟨rfl, -⟩ | ⟨rest, rfl, rfl⟩
    · exact .inl ⟨[], by simpa using hrun.symm⟩
    · rcases List.append_eq_append_iff.1 hrun with ⟨left, -, rfl⟩ | ⟨left, -, hrest⟩
      · simp at notMem
      · rcases List.cons_eq_append_iff.1 hrest with ⟨rfl, rfl⟩ | ⟨left, rfl, rfl⟩
        · simp at notMem
        · exact .inr ⟨left, rfl⟩
  · exact .inl ⟨rest, hfirst⟩

namespace Segmented
variable {segments others : List Segment}

theorem unique (h : Segmented d chain segments) (h' : Segmented d chain others) :
    segments = others := by
  induction h generalizing others with
  | whole whole =>
    cases h' with
    | whole _ => rfl
    | split foremost _ _ => exact (not_foremost_of_whole whole foremost).elim
  | split foremost _ _ first second =>
    cases h' with
    | whole whole => exact (not_foremost_of_whole whole foremost).elim
    | split foremost' before after =>
      obtain rfl := foremost.unique foremost'
      rw [first before, second after]

theorem covered (h : Segmented d chain segments) : segments.flatMap Segment.covered = chain := by
  induction h with
  | @whole chain _ => simp [List.flatMap_map, Segment.covered]
  | @split chain stretch before after _ _ _ first second =>
    rw [List.flatMap_append, List.flatMap_cons, first, second]
    exact take_part_drop chain stretch.start stretch.length

theorem written (h : Segmented d chain segments) :
    segments.map Segment.written = d.shorten chain := by
  induction h with
  | @whole chain whole =>
    rw [shorten_of_none (longestStretch_of_whole whole), List.map_map]
    exact List.map_id chain
  | split foremost _ _ first second =>
    rw [shorten_of_some (longestStretch_of_foremost foremost), List.map_append, List.map_cons,
      first, second]
    rfl

/-- What is replaced is named. -/
theorem named (h : Segmented d chain segments) {stretch : List String}
    (member : .replaced stretch name ∈ segments) :
    2 ≤ stretch.length ∧ d.get? stretch = some name := by
  induction h with
  | whole _ => simp at member
  | @split chain foremost before after isForemost _ _ first second =>
    rcases List.mem_append.1 member with member | member
    · exact first member
    · rcases List.mem_cons.1 member with same | member
      · cases same
        have := isForemost.two_le
        have := isForemost.fits
        refine ⟨?_, isForemost.named⟩
        simp only [part, List.length_take, List.length_drop]
        omega
      · exact second member

/-- Terms that stay next to each other have no name together. -/
theorem unnamed (h : Segmented d chain segments) {before after : List Segment}
    {run : List String} (neighbours : segments = before ++ run.map .kept ++ after)
    (two_le : 2 ≤ run.length) : d.get? run = none := by
  induction h generalizing before after with
  | @whole chain whole =>
    obtain ⟨left, right, rfl, hleft, -⟩ := List.map_eq_append_iff.1 neighbours
    obtain ⟨first, middle, rfl, -, hmiddle⟩ := List.map_eq_append_iff.1 hleft
    have same : middle = run := (List.map_inj_right fun _ _ => Segment.kept.inj).1 hmiddle
    have unnamed := whole first.length run.length two_le (by simp [same])
    rwa [part, List.append_assoc, List.drop_left, same, List.take_left] at unnamed
  | split _ _ _ first second =>
    rcases beside (by simp) neighbours with ⟨rest, same⟩ | ⟨rest, same⟩
    · exact first same
    · exact second same

end Segmented

theorem segmented (d : Dictionary) (chain : List String) : ∃ segments, Segmented d chain segments := by
  induction chain using shorten.induct d with
  | case1 chain whole => exact ⟨_, .whole ((longestStretch_spec d chain).1 whole)⟩
  | case2 chain stretch named first second =>
    obtain ⟨before, hbefore⟩ := first
    obtain ⟨after, hafter⟩ := second
    exact ⟨_, .split ((longestStretch_spec d chain).2 stretch named) hbefore hafter⟩

/-- A chain that comes down to one term is that term, or has it for a name. -/
theorem shorten_eq_singleton_iff {term : String} : d.shorten chain = [term] ↔
    chain = [term] ∨ 2 ≤ chain.length ∧ d.get? chain = some term := by
  constructor
  · intro short
    obtain ⟨segments, h⟩ := segmented d chain
    obtain ⟨segment, rfl, rfl⟩ := List.map_eq_singleton_iff.1 (h.written.trans short)
    have covered := h.covered
    rw [List.flatMap_singleton] at covered
    cases segment with
    | kept term => exact .inl covered.symm
    | replaced stretch name =>
      obtain rfl : stretch = chain := covered
      exact .inr (h.named List.mem_cons_self)
  · rintro (rfl | ⟨two_le, named⟩)
    · have whole : Whole d [term] := fun start length two_le fits => by
        simp only [List.length_cons, List.length_nil] at fits
        omega
      exact shorten_of_none (longestStretch_of_whole whole)
    · have foremost : Foremost d chain ⟨0, chain.length, term⟩ := by
        refine ⟨two_le, by simp, by simpa [part] using named, fun start length _ fits _ => ?_⟩
        simp only
        omega
      rw [shorten_of_some (longestStretch_of_foremost foremost)]
      have empty : d.shorten [] = [] := shorten_of_none rfl
      simp [empty]

/-- A shortened chain is written from the segments of the chain, of which there is one greedy
choice. They cover the chain. Each is a term that stays or a named stretch of two or more, and
terms that stay side by side have no name together. -/
theorem shorten_segmented (d : Dictionary) (chain : List String) :
    ∃ segments, Segmented d chain segments ∧
      (∀ others, Segmented d chain others → others = segments) ∧
      segments.flatMap Segment.covered = chain ∧
      d.shorten chain = segments.map Segment.written ∧
      (∀ stretch name, .replaced stretch name ∈ segments →
        2 ≤ stretch.length ∧ d.get? stretch = some name) ∧
      ∀ before run after, segments = before ++ run.map .kept ++ after → 2 ≤ run.length →
        d.get? run = none := by
  obtain ⟨segments, h⟩ := segmented d chain
  exact ⟨segments, h, fun others h' => h'.unique h, h.covered, h.written.symm,
    fun _ _ => h.named, fun _ _ _ => h.unnamed⟩

end KinQuery.Dictionary
