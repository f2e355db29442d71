import KinQuery.Proofs.Dictionary.Lookup
import Mathlib.Data.List.Forall2
import Mathlib.Data.List.Nodup

/-! Keys as patterns.

A key matches a chain if its terms match those of the chain one by one. Of all entries that were
accepted, the last whose key matches a chain names it. -/
namespace KinQuery.Dictionary

open List (Forall₂)

variable {d e : Dictionary} {key name term : String} {chain terms : List String}

/-! ### Matching -/

def IsPlaceholder (term : String) : Prop :=
  term ∈ ["parent", "child", "spouse"]

instance : DecidablePred IsPlaceholder :=
  fun _ => inferInstanceAs (Decidable (_ ∈ _))

/-- The terms of chains that a term of a key matches. -/
inductive Fits : String → String → Prop
  | mother : Fits "parent" "mother"
  | father : Fits "parent" "father"
  | son : Fits "child" "son"
  | daughter : Fits "child" "daughter"
  | husband : Fits "spouse" "husband"
  | wife : Fits "spouse" "wife"
  | itself {term : String} : ¬ IsPlaceholder term → Fits term term

/-- A key matches a chain, position by position. -/
def StandsFor (key : String) (chain : List String) : Prop :=
  Forall₂ Fits (keyTerms key) chain

/-- The number of placeholders in a key. -/
def placeholders (key : String) : Nat :=
  (keyTerms key).countP IsPlaceholder

theorem alternatives_of_not_isPlaceholder (h : ¬ IsPlaceholder term) :
    alternatives term = [term] := by
  unfold alternatives
  split
  · exact absurd (by decide) h
  · exact absurd (by decide) h
  · exact absurd (by decide) h
  · rfl

theorem isPlaceholder_cases (h : IsPlaceholder term) :
    term = "parent" ∨ term = "child" ∨ term = "spouse" := by
  simpa [IsPlaceholder] using h

theorem mem_alternatives {pattern : String} : term ∈ alternatives pattern ↔ Fits pattern term := by
  constructor
  · intro h
    by_cases placeholder : IsPlaceholder pattern
    · rcases isPlaceholder_cases placeholder with rfl | rfl | rfl
      · rcases List.mem_pair.1 h with rfl | rfl
        · exact .mother
        · exact .father
      · rcases List.mem_pair.1 h with rfl | rfl
        · exact .son
        · exact .daughter
      · rcases List.mem_pair.1 h with rfl | rfl
        · exact .husband
        · exact .wife
    · rw [alternatives_of_not_isPlaceholder placeholder, List.mem_singleton] at h
      exact h.symm ▸ .itself placeholder
  · intro h
    cases h with
    | itself other => simp [alternatives_of_not_isPlaceholder other]
    | _ => decide

theorem length_alternatives (term : String) :
    (alternatives term).length = if IsPlaceholder term then 2 else 1 := by
  by_cases placeholder : IsPlaceholder term
  · rw [if_pos placeholder]
    rcases isPlaceholder_cases placeholder with rfl | rfl | rfl <;> rfl
  · rw [if_neg placeholder, alternatives_of_not_isPlaceholder placeholder]
    rfl

theorem nodup_alternatives (term : String) : (alternatives term).Nodup := by
  by_cases placeholder : IsPlaceholder term
  · rcases isPlaceholder_cases placeholder with rfl | rfl | rfl <;> decide
  · rw [alternatives_of_not_isPlaceholder placeholder]
    exact List.nodup_singleton term

theorem mem_expand : chain ∈ expand terms ↔ Forall₂ Fits terms chain := by
  induction terms generalizing chain with
  | nil => simp [expand]
  | cons pattern terms ih =>
    rw [expand, List.mem_flatMap, List.forall₂_cons_left_iff]
    constructor
    · rintro ⟨first, fits, member⟩
      obtain ⟨rest, hrest, rfl⟩ := List.mem_map.1 member
      exact ⟨first, rest, mem_alternatives.1 fits, ih.1 hrest, rfl⟩
    · rintro ⟨first, rest, fits, matched, rfl⟩
      exact ⟨first, mem_alternatives.2 fits, List.mem_map_of_mem (ih.2 matched)⟩

instance (key : String) (chain : List String) : Decidable (StandsFor key chain) :=
  decidable_of_iff (chain ∈ expand (keyTerms key)) mem_expand

/-- Every placeholder doubles the chains. -/
theorem length_expand (terms : List String) :
    (expand terms).length = 2 ^ terms.countP IsPlaceholder := by
  induction terms with
  | nil => rfl
  | cons term terms ih =>
    have doubled : (expand (term :: terms)).length =
        (alternatives term).length * (expand terms).length := by
      simp [expand, List.length_flatMap, List.map_const']
    rw [doubled, length_alternatives, ih, List.countP_cons]
    by_cases placeholder : IsPlaceholder term
    · simp [placeholder, Nat.pow_succ, Nat.mul_comm]
    · simp [placeholder]

theorem nodup_expand (terms : List String) : (expand terms).Nodup := by
  induction terms with
  | nil => exact List.nodup_singleton []
  | cons term terms ih =>
    refine List.nodup_flatMap.2 ⟨fun first _ => ih.map (List.cons_injective), ?_⟩
    refine (nodup_alternatives term).imp fun {first other} different => ?_
    intro chain hfirst hother
    obtain ⟨_, -, rfl⟩ := List.mem_map.1 hfirst
    obtain ⟨_, -, same⟩ := List.mem_map.1 hother
    exact different (List.cons.inj same).1.symm

theorem covers_iff (chain : List String) (entry : String × String) :
    covers chain entry = true ↔ StandsFor entry.1 chain := by
  rw [covers, List.contains_iff_mem, mem_expand]
  rfl

/-! ### Histories -/

/-- The additions that are accepted, in order, and the dictionary after all of them. -/
def putEach (d : Dictionary) : List (String × String) → List (String × String) × Dictionary
  | [] => ([], d)
  | (key, name) :: puts =>
    match d.put key name with
    | (.ok true, e) => ((key, name) :: (e.putEach puts).1, (e.putEach puts).2)
    | (_, e) => e.putEach puts

/-- A dictionary in memory whose chains come from these entries, in this order. -/
structure Records (history : List (String × String)) (d : Dictionary) : Prop where
  chains : d.chains = (history.map fun entry => normalEntry entry.1 entry.2).reverse.flatMap chainsOf
  file : d.file = none

theorem Records.withEntry {history : List (String × String)} (h : Records history d)
    (key name : String) : Records (history ++ [(key, name)]) (d.withEntry key name) := by
  refine ⟨?_, h.file⟩
  rw [withEntry_chains, h.chains, List.map_append, List.reverse_append, List.flatMap_append]
  simp

theorem Records.insertAll {history entries : List (String × String)} (h : Records history d)
    (ok : d.insertAll entries = .ok e) : Records (history ++ entries) e := by
  unfold Dictionary.insertAll at ok
  induction entries generalizing d history with
  | nil =>
    cases ok
    simpa using h
  | cons entry entries ih =>
    rw [List.foldlM_cons] at ok
    cases first : d.insert entry.1 entry.2 with
    | error failure =>
      rw [first] at ok
      cases ok
    | ok next =>
      obtain ⟨-, rfl⟩ := insert_eq_ok first
      rw [first] at ok
      simpa using ih (h.withEntry entry.1 entry.2) ok

/-- In memory there is nothing to hinder an addition but its key or name. -/
theorem Records.put {history : List (String × String)} (h : Records history d) (key name : String) :
    ((d.put key name).1 = .ok true ∧ Records (history ++ [(key, name)]) (d.put key name).2) ∨
      ((d.put key name).1 ≠ .ok true ∧ Records history (d.put key name).2) := by
  have saves : (d.withEntry key name).save = .ok (d.withEntry key name) := by
    have memory : (d.withEntry key name).file = none := h.file
    rw [save, memory]
  have outcome := put_outcome d key name
  generalize d.put key name = result at outcome
  cases outcome with
  | present _ => exact .inr ⟨by simp, h⟩
  | refused failure _ => exact .inr ⟨by simp, h⟩
  | unsaved failure _ _ unsaved =>
    rw [saves] at unsaved
    cases unsaved
  | saved e _ _ saved =>
    rw [saves] at saved
    cases saved
    exact .inl ⟨rfl, h.withEntry key name⟩

theorem Records.putEach {history puts : List (String × String)} (h : Records history d) :
    Records (history ++ (d.putEach puts).1) (d.putEach puts).2 := by
  induction puts generalizing d history with
  | nil => simpa [Dictionary.putEach] using h
  | cons put puts ih =>
    obtain ⟨key, name⟩ := put
    have step := h.put key name
    rw [Dictionary.putEach]
    split
    · rename_i e accepted
      rw [accepted] at step
      rcases step with ⟨-, records⟩ | ⟨other, -⟩
      · simpa using ih records
      · exact absurd rfl other
    · rename_i answer e refused hput
      rw [hput] at step
      rcases step with ⟨same, -⟩ | ⟨-, records⟩
      · exact absurd same (by simpa using refused)
      · exact ih records

/-! ### The last match -/

/-- The entry matches the chain, and none that comes later does. -/
def IsLastMatch (history : List (String × String)) (chain : List String)
    (entry : String × String) : Prop :=
  ∃ before after, history = before ++ entry :: after ∧ StandsFor entry.1 chain ∧
    ∀ later ∈ after, ¬ StandsFor later.1 chain

theorem isLastMatch_append_of_standsFor {history : List (String × String)}
    {entry last : String × String} (matched : StandsFor last.1 chain) :
    IsLastMatch (history ++ [last]) chain entry ↔ entry = last := by
  constructor
  · rintro ⟨before, after, same, -, unmatched⟩
    rcases List.eq_nil_or_concat after with rfl | ⟨between, final, rfl⟩
    · exact (List.append_singleton_inj.1 same).2.symm
    · rw [List.concat_eq_append, ← List.cons_append, ← List.append_assoc] at same
      obtain ⟨-, rfl⟩ := List.append_singleton_inj.1 same
      exact absurd matched (unmatched _ (by simp))
  · rintro rfl
    exact ⟨history, [], rfl, matched, by simp⟩

theorem isLastMatch_append_of_not_standsFor {history : List (String × String)}
    {entry last : String × String} (unmatched : ¬ StandsFor last.1 chain) :
    IsLastMatch (history ++ [last]) chain entry ↔ IsLastMatch history chain entry := by
  constructor
  · rintro ⟨before, after, same, matched, others⟩
    rcases List.eq_nil_or_concat after with rfl | ⟨between, final, rfl⟩
    · obtain ⟨-, rfl⟩ := List.append_singleton_inj.1 same
      exact absurd matched unmatched
    · rw [List.concat_eq_append, ← List.cons_append, ← List.append_assoc] at same
      obtain ⟨rfl, -⟩ := List.append_singleton_inj.1 same
      exact ⟨before, between, rfl, matched, fun later member => others later (by simp [member])⟩
  · rintro ⟨before, after, rfl, matched, others⟩
    refine ⟨before, after ++ [last], by simp, matched, fun later member => ?_⟩
    rcases List.mem_append.1 member with member | member
    · exact others later member
    · exact List.mem_singleton.1 member ▸ unmatched

theorem Records.get?_eq {history : List (String × String)} (h : Records history d)
    (chain : List String) :
    d.get? chain = lastName (history.map fun entry => normalEntry entry.1 entry.2) chain := by
  rw [get?, h.chains, lookup_flatMap_chainsOf]

theorem covers_normalEntry (chain : List String) (key name : String) :
    covers chain (normalEntry key name) = true ↔ StandsFor key chain := by
  rw [covers_iff, normalEntry, StandsFor, keyTerms_normalKey, StandsFor]

theorem Records.get?_eq_some_iff {history : List (String × String)} (h : Records history d) :
    d.get? chain = some name ↔
      ∃ entry, IsLastMatch history chain entry ∧ Text.trimmed entry.2 = name := by
  rw [h.get?_eq]
  clear h
  induction history using List.reverseRecOn with
  | nil => simp [lastName, IsLastMatch]
  | append_singleton history last ih =>
    rw [List.map_append, List.map_singleton, lastName_append]
    by_cases matched : StandsFor last.1 chain
    · rw [if_pos ((covers_normalEntry chain last.1 last.2).2 matched)]
      simp only [isLastMatch_append_of_standsFor matched, exists_eq_left, Option.some.injEq,
        normalEntry]
    · rw [if_neg (mt (covers_normalEntry chain last.1 last.2).1 matched), ih]
      simp only [isLastMatch_append_of_not_standsFor matched]

theorem Records.get?_eq_none_iff {history : List (String × String)} (h : Records history d) :
    d.get? chain = none ↔ ∀ entry ∈ history, ¬ StandsFor entry.1 chain := by
  rw [h.get?_eq, lastName, Option.map_eq_none_iff, List.getLast?_eq_none_iff,
    List.filter_eq_nil_iff, List.forall_mem_map]
  simp only [covers_normalEntry]

/-! ### Spellings of a key -/

/-- Two spellings that differ in blanks around the terms alone. -/
def Respells (key other : String) : Prop :=
  Forall₂ (fun term padded => ∃ left right : List Char, (∀ c ∈ left, Text.isBlank c = true) ∧
      (∀ c ∈ right, Text.isBlank c = true) ∧ padded = left ++ term ++ right)
    (Text.splitOn ',' key.toList) (Text.splitOn ',' other.toList)

theorem trim_padded {left right : List Char} (hleft : ∀ c ∈ left, Text.isBlank c = true)
    (hright : ∀ c ∈ right, Text.isBlank c = true) (cs : List Char) :
    Text.trim (left ++ cs ++ right) = Text.trim cs := by
  have start : Text.trimStart (left ++ cs ++ right) = Text.trimStart (cs ++ right) := by
    rw [List.append_assoc, Text.trimStart, List.dropWhile_append_of_pos hleft, Text.trimStart]
  have stop (rest : List Char) : Text.trimEnd (rest ++ right) = Text.trimEnd rest := by
    rw [Text.trimEnd, List.reverse_append, List.dropWhile_append_of_pos (by simpa using hright),
      Text.trimEnd]
  rw [Text.trim, start, Text.trim, Text.trimStart, List.dropWhile_append]
  split
  · rename_i blank
    have nothing : right.dropWhile Text.isBlank = [] := List.dropWhile_eq_nil_iff.2 hright
    rw [nothing, Text.trimStart, List.isEmpty_iff.1 blank]
  · exact stop _

theorem Respells.keyTerms_eq {other : String} (h : Respells key other) :
    keyTerms other = keyTerms key := by
  unfold Respells at h
  unfold keyTerms
  generalize Text.splitOn ',' key.toList = pieces at h
  generalize Text.splitOn ',' other.toList = others at h
  induction h with
  | nil => rfl
  | cons first _ ih =>
    obtain ⟨left, right, hleft, hright, rfl⟩ := first
    rw [List.map_cons, List.map_cons, ih, trim_padded hleft hright]

theorem insert_respelled {other : String} (h : Respells key other) (d : Dictionary)
    (name : String) : d.insert other name = d.insert key name := by
  rw [insert, insert, normalKey, normalKey, h.keyTerms_eq]

theorem put_respelled {other : String} (h : Respells key other) (d : Dictionary)
    (name : String) : d.put other name = d.put key name := by
  rw [put, put, insert_respelled h, normalKey, normalKey, h.keyTerms_eq]

/-! ### Lookup -/

/-- A dictionary in memory is looked up by matching. The name of a chain is that of the last
entry accepted whose key matches it. A key matches two chains for every placeholder, and blanks
around its terms mean nothing. -/
theorem get?_iff_lastMatch {entries puts : List (String × String)} {start : Dictionary}
    (made : ofEntries entries = .ok start) :
    (∀ chain name, (start.putEach puts).2.get? chain = some name ↔
        ∃ entry, IsLastMatch (entries ++ (start.putEach puts).1) chain entry ∧
          Text.trimmed entry.2 = name) ∧
      (∀ chain, (start.putEach puts).2.get? chain = none ↔
        ∀ entry ∈ entries ++ (start.putEach puts).1, ¬ StandsFor entry.1 chain) ∧
      (∀ key, (expand (keyTerms key)).length = 2 ^ placeholders key ∧
        (expand (keyTerms key)).Nodup ∧
        ∀ chain, chain ∈ expand (keyTerms key) ↔ StandsFor key chain) ∧
      ∀ key other, Respells key other → ∀ (d : Dictionary) (name : String),
        d.insert other name = d.insert key name ∧ d.put other name = d.put key name := by
  have empty : Records [] Dictionary.empty := ⟨rfl, rfl⟩
  have records : Records (entries ++ (start.putEach puts).1) (start.putEach puts).2 := by
    simpa using (empty.insertAll made).putEach
  refine ⟨fun chain name => records.get?_eq_some_iff, fun chain => records.get?_eq_none_iff,
    fun key => ⟨length_expand _, nodup_expand _, fun chain => mem_expand⟩, ?_⟩
  exact fun key other respelled d name =>
    ⟨insert_respelled respelled d name, put_respelled respelled d name⟩

/-- Of two entries that match a chain the later names it, and the earlier names the others. -/
theorem get?_iff_lastMatch_overlapping :
    ∃ start, ofEntries [("parent,son", "brother")] = .ok start ∧
      let outcome := start.putEach [("mother , son", "half-brother"), ("parent, son", "sibling")]
      outcome.1 = [("mother , son", "half-brother")] ∧
        outcome.2.get? ["mother", "son"] = some "half-brother" ∧
        outcome.2.get? ["father", "son"] = some "brother" ∧
        outcome.2.get? ["parent", "son"] = none := by
  have made : ofEntries [("parent,son", "brother")] =
      .ok { entries := [("parent,son", "brother")]
            chains := [(["mother", "son"], "brother"), (["father", "son"], "brother")] } := rfl
  refine ⟨_, made, ?_⟩
  intro outcome
  have accepted : outcome.1 = [("mother , son", "half-brother")] := by decide +kernel
  obtain ⟨named, unnamed, -⟩ := @get?_iff_lastMatch _
    [("mother , son", "half-brother"), ("parent, son", "sibling")] _ made
  change ∀ chain name, outcome.2.get? chain = some name ↔ ∃ entry,
    IsLastMatch ([("parent,son", "brother")] ++ outcome.1) chain entry ∧ _ at named
  change ∀ chain, outcome.2.get? chain = none ↔
    ∀ entry ∈ [("parent,son", "brother")] ++ outcome.1, _ at unnamed
  rw [accepted] at named unnamed
  refine ⟨accepted, (named _ _).2 ⟨("mother , son", "half-brother"), ?_, by decide +kernel⟩,
    (named _ _).2 ⟨("parent,son", "brother"), ?_, by decide +kernel⟩,
    (unnamed _).2 (by decide +kernel)⟩
  · exact ⟨[("parent,son", "brother")], [], rfl, by decide +kernel, by simp⟩
  · exact ⟨[], [("mother , son", "half-brother")], rfl, by decide +kernel, by decide +kernel⟩

end KinQuery.Dictionary
