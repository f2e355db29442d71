import KinQuery.Proofs.Dictionary.Segmentation
import KinQuery.Proofs.Range.Checked

/-! Shortening a chain by positions.

A chain is searched for its longest named stretch by two nested loops over first and last
positions, and cut into slices around it. No position leaves the chain, and the name of the
stretch is there when it is looked up once more. -/
namespace KinQuery.Range

open Dictionary (part Whole Foremost)

/-- The longest named stretch met so far, by its first and its last position, and its length. A
single term is no stretch. -/
structure Longest where
  ends : Option (Nat × Nat) := none
  length : Nat := 1

/-- Looks at the stretch between two positions, if it is longer than the longest so far. -/
def look (d : Dictionary) (chain : List String) (first : Nat) (best : Longest) (last : Nat) :
    Option Longest := do
  let length ← plus (← minus last first) 1
  if length ≤ best.length then some best
  else do
    let stretch ← itemsBetween chain first last
    if (d.get? stretch).isSome then some ⟨some (first, last), length⟩ else some best

/-- Looks at the stretches that begin at one position, from the last end to the next. -/
def lookFrom (d : Dictionary) (chain : List String) (best : Longest) (first : Nat) :
    Option Longest := do
  let next ← plus first 1
  (List.range' next (chain.length - next)).reverse.foldlM (look d chain first) best

def scan (d : Dictionary) (chain : List String) : Option Longest :=
  (List.range chain.length).foldlM (lookFrom d chain) {}

/-- Shortens a chain, calling itself at most `depth` times in a row. -/
def shorten (d : Dictionary) : (depth : Nat) → List String → Option (List String)
  | 0, _ => none
  | depth + 1, chain => do
    match (← scan d chain).ends with
    | none => some chain
    | some (first, last) => do
      let before ← shorten d depth (← itemsBefore chain first)
      let name ← d.get? (← itemsBetween chain first last)
      let after ← shorten d depth (← itemsFrom chain (← plus last 1))
      some (before ++ name :: after)

/-! ### The longest stretch -/

variable {d : Dictionary} {chain : List String} {first last : Nat} {best : Longest}

/-- What is known of the longest stretch among those that begin before `first`, or begin there
and end at `last` or later. -/
structure Best (d : Dictionary) (chain : List String) (first last : Nat) (best : Longest) :
    Prop where
  single : best.ends = none → best.length = 1
  found : ∀ i j, best.ends = some (i, j) →
    i < j ∧ j < chain.length ∧ i ≤ first ∧ best.length = j + 1 - i ∧
      d.get? (part chain i (j + 1 - i)) ≠ none
  longest : ∀ i j, i < j → j < chain.length → (i < first ∨ i = first ∧ last ≤ j) →
    d.get? (part chain i (j + 1 - i)) ≠ none →
      j + 1 - i < best.length ∨ (j + 1 - i = best.length ∧ ∀ k l, best.ends = some (k, l) → k ≤ i)

theorem look_spec (short : chain.length < 2 ^ 63) (ordered : first < last)
    (within : last < chain.length) (known : Best d chain first (last + 1) best) :
    ∃ best', look d chain first best last = some best' ∧ Best d chain first last best' := by
  have length : plus (last - first) 1 = some (last - first + 1) := plus_eq (by omega)
  have same : last - first + 1 = last + 1 - first := by omega
  unfold look
  rw [minus_eq (Nat.le_of_lt ordered), Option.bind_eq_bind, Option.bind_some, length]
  simp only [Option.bind_eq_bind, Option.bind_some, same]
  split
  · rename_i notLonger
    refine ⟨best, rfl, known.single, known.found, fun i j hij hj seen named => ?_⟩
    by_cases new : i = first ∧ j = last
    · obtain ⟨rfl, rfl⟩ := new
      rcases Nat.lt_or_eq_of_le notLonger with less | equal
      · exact .inl less
      · exact .inr ⟨equal, fun k l ends => (known.found k l ends).2.2.1⟩
    · exact known.longest i j hij hj (by omega) named
  · rename_i longer
    rw [itemsBetween_eq (Nat.le_of_lt ordered) within, Option.bind_some]
    change ∃ best', (if (d.get? (part chain first (last + 1 - first))).isSome then _ else _) = _ ∧ _
    split
    · rename_i isNamed
      refine ⟨_, rfl, ?_, ?_, fun i j hij hj seen named => ?_⟩
      · rintro ⟨⟩
      · rintro i j ⟨⟩
        exact ⟨ordered, within, Nat.le_refl _, rfl, Option.isSome_iff_ne_none.1 isNamed⟩
      · by_cases new : i = first ∧ j = last
        · obtain ⟨rfl, rfl⟩ := new
          exact .inr ⟨rfl, by rintro k l ⟨⟩; exact Nat.le_refl _⟩
        · have := known.longest i j hij hj (by omega) named
          exact .inl (by simp only; omega)
    · rename_i unnamed
      refine ⟨best, rfl, known.single, known.found, fun i j hij hj seen named => ?_⟩
      by_cases new : i = first ∧ j = last
      · obtain ⟨rfl, rfl⟩ := new
        exact absurd (Option.isSome_iff_ne_none.2 named) unnamed
      · exact known.longest i j hij hj (by omega) named

theorem looks_spec (short : chain.length < 2 ^ 63) {count : Nat} :
    ∀ {best : Longest}, first + 1 + count ≤ chain.length →
      Best d chain first (first + 1 + count) best →
        ∃ best', (List.range' (first + 1) count).reverse.foldlM (look d chain first) best =
          some best' ∧ Best d chain first (first + 1) best' := by
  induction count with
  | zero => exact fun _ known => ⟨_, rfl, known⟩
  | succ count ih =>
    intro best within known
    have known : Best d chain first (first + 1 + count + 1) best := known
    obtain ⟨next, run, known'⟩ := look_spec short (by omega) (by omega) known
    rw [List.range'_1_concat, List.reverse_append, List.reverse_singleton, List.singleton_append,
      List.foldlM_cons, run]
    exact ih (by omega) known'

theorem lookFrom_spec (short : chain.length < 2 ^ 63) (within : first < chain.length)
    (known : Best d chain first chain.length best) :
    ∃ best', lookFrom d chain best first = some best' ∧
      Best d chain (first + 1) chain.length best' := by
  have all : first + 1 + (chain.length - (first + 1)) = chain.length := by omega
  obtain ⟨best', run, known'⟩ := looks_spec short (Nat.le_of_eq all) (by rwa [all])
  refine ⟨best', ?_, known'.single, fun i j ends => ?_, fun i j hij hj seen named => ?_⟩
  · rw [lookFrom, plus_eq (by omega)]
    exact run
  · obtain ⟨ordered, fits, begins, length⟩ := known'.found i j ends
    exact ⟨ordered, fits, Nat.le_succ_of_le begins, length⟩
  · exact known'.longest i j hij hj (by omega) named

theorem scan_spec (short : chain.length < 2 ^ 63) :
    ∃ best, scan d chain = some best ∧ Best d chain chain.length chain.length best := by
  have upTo (n : Nat) (le : n ≤ chain.length) :
      ∃ best, (List.range n).foldlM (lookFrom d chain) {} = some best ∧
        Best d chain n chain.length best := by
    induction n with
    | zero =>
      refine ⟨{}, rfl, fun _ => rfl, ?_, fun i j hij hj seen => ?_⟩
      · rintro i j ⟨⟩
      · omega
    | succ n ih =>
      obtain ⟨best, run, known⟩ := ih (Nat.le_of_succ_le le)
      obtain ⟨best', next, known'⟩ := lookFrom_spec short le known
      refine ⟨best', ?_, known'⟩
      rw [List.range_succ, List.foldlM_append, run]
      simpa using next
  exact upTo chain.length (Nat.le_refl _)

theorem Best.whole (known : Best d chain chain.length chain.length best)
    (none : best.ends = none) : Whole d chain := by
  intro start length two_le fits
  by_contra named
  have same : start + length - 1 + 1 - start = length := by omega
  have long := known.longest start (start + length - 1) (by omega) (by omega) (.inl (by omega))
    (by rwa [same])
  rw [known.single none, same] at long
  omega

theorem Best.foremost (known : Best d chain chain.length chain.length best)
    (ends : best.ends = some (first, last)) :
    ∃ name, d.get? (part chain first (last + 1 - first)) = some name ∧
      Foremost d chain ⟨first, last + 1 - first, name⟩ := by
  obtain ⟨ordered, fits, -, length, named⟩ := known.found first last ends
  obtain ⟨name, hname⟩ := Option.ne_none_iff_exists'.1 named
  refine ⟨name, hname, ?_, ?_, hname, fun start other two_le within other_named => ?_⟩
  · simp only
    omega
  · simp only
    omega
  · have same : start + other - 1 + 1 - start = other := by omega
    have long := known.longest start (start + other - 1) (by omega) (by omega) (.inl (by omega))
      (by rwa [same])
    rw [same, length] at long
    simp only
    refine long.imp id fun ⟨equal, left⟩ => ⟨equal, left first last ends⟩

/-! ### Shortening -/

/-- Shortening stays within the chain, and finds what it replaces. -/
theorem shorten_eq (d : Dictionary) {depth : Nat} :
    ∀ {chain : List String}, chain.length < depth → chain.length < 2 ^ 63 →
      shorten d depth chain = some (d.shorten chain) := by
  induction depth with
  | zero => exact fun deep => absurd deep (Nat.not_lt_zero _)
  | succ depth ih =>
    intro chain deep short
    obtain ⟨best, run, known⟩ := scan_spec (d := d) short
    rw [shorten, run, Option.bind_eq_bind, Option.bind_some]
    cases ends : best.ends with
    | none =>
      rw [Dictionary.shorten_of_none (Dictionary.longestStretch_of_whole (known.whole ends))]
    | some stretch =>
      obtain ⟨first, last⟩ := stretch
      obtain ⟨ordered, fits, -⟩ := known.found first last ends
      obtain ⟨name, named, foremost⟩ := known.foremost ends
      have whole : first + (last + 1 - first) = last + 1 := by omega
      have before : shorten d depth (chain.take first) = some (d.shorten (chain.take first)) :=
        ih (by rw [List.length_take]; omega) (by rw [List.length_take]; omega)
      have after : shorten d depth (chain.drop (last + 1)) =
          some (d.shorten (chain.drop (last + 1))) :=
        ih (by rw [List.length_drop]; omega) (by rw [List.length_drop]; omega)
      have between : itemsBetween chain first last = some (part chain first (last + 1 - first)) :=
        itemsBetween_eq (Nat.le_of_lt ordered) fits
      rw [Dictionary.shorten_of_some (Dictionary.longestStretch_of_foremost foremost), whole]
      simp only [itemsBefore_eq (show first ≤ chain.length by omega), Option.bind_eq_bind,
        Option.bind_some, before, between, named, plus_eq (show last + 1 < 2 ^ 64 by omega),
        itemsFrom_eq (show last + 1 ≤ chain.length by omega), after]

end KinQuery.Range
