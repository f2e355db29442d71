import KinQuery.Proofs.Dictionary.Lookup

/-! Which dictionaries there are, and where the names of chains come from: every name that a
lookup finds is that of an entry still in the dictionary. -/
namespace KinQuery.Dictionary

variable {d e : Dictionary} {key name : String} {chain : List String}

/-- The dictionaries that come from empty ones by additions, wherever they are kept. -/
inductive Made : Dictionary → Prop
  | empty (file : Option BackingFile) : Made { file }
  | insert {d e : Dictionary} (key name : String) : Made d → d.insert key name = .ok e → Made e
  | store {d : Dictionary} (file : Option BackingFile) : Made d → Made { d with file }

namespace Made

theorem insertAll {entries : List (String × String)} (hd : Made d)
    (ok : d.insertAll entries = .ok e) : Made e := by
  unfold Dictionary.insertAll at ok
  induction entries generalizing d with
  | nil =>
    cases ok
    exact hd
  | cons entry entries ih =>
    rw [List.foldlM_cons] at ok
    cases first : d.insert entry.1 entry.2 with
    | error failure =>
      rw [first] at ok
      cases ok
    | ok f =>
      rw [first] at ok
      exact ih (hd.insert _ _ first) ok

theorem load {file : BackingFile} (ok : load file = .ok d) : Made d := by
  unfold Dictionary.load at ok
  split at ok
  · cases ok
    exact .empty (some file)
  · split at ok
    · cases ok
    · exact (empty (some file)).insertAll ok

theorem save (hd : Made d) (ok : d.save = .ok e) : Made e := by
  unfold Dictionary.save at ok
  split at ok
  · cases ok
    exact hd
  · split at ok
    · cases ok
    · cases ok
      exact hd.store _

theorem put (hd : Made d) (key name : String) : Made (d.put key name).2 := by
  have outcome := put_outcome d key name
  generalize d.put key name = result at outcome
  cases outcome with
  | present _ => exact hd
  | refused _ _ => exact hd
  | unsaved _ _ isEntry _ => exact hd.insert key name (insert_of_isEntry isEntry)
  | saved e _ isEntry saved => exact (hd.insert key name (insert_of_isEntry isEntry)).save saved

end Made

/-- Every name that is found belongs to an entry, none of whose names holds a quote. -/
structure Named (d : Dictionary) : Prop where
  entry : ∀ chain name, d.get? chain = some name →
    ∃ key, d.entries.lookup key = some name ∧ chain ∈ expand (keyTerms key)
  free : ∀ entry ∈ d.entries, hasQuote entry.2 = false

theorem get?_withEntry (d : Dictionary) (key name : String) (chain : List String) :
    (d.withEntry key name).get? chain =
      if chain ∈ expand (keyTerms key) then some (Text.trimmed name) else d.get? chain := by
  have added : (d.withEntry key name).get? chain =
      (chainsOf (key, Text.trimmed name) ++ d.chains).lookup chain := rfl
  rw [added, List.lookup_append, lookup_chainsOf, covers, List.contains_eq_mem]
  by_cases covered : chain ∈ expand (keyTerms key)
  · simp [covered]
  · simp [covered, get?]

theorem Named.withEntry (hd : Named d) (isEntry : IsEntry key name) :
    Named (d.withEntry key name) := by
  constructor
  · intro chain other h
    rw [get?_withEntry] at h
    split at h
    · rename_i covered
      cases h
      refine ⟨normalKey key, lookup_insertSorted_self, ?_⟩
      rwa [keyTerms_normalKey]
    · rename_i free
      obtain ⟨found, hfound, covered⟩ := hd.entry chain other h
      refine ⟨found, ?_, covered⟩
      have different : found ≠ normalKey key := by
        rintro rfl
        rw [keyTerms_normalKey] at covered
        exact free covered
      exact (lookup_insertSorted_ne different).trans hfound
  · intro entry h
    rcases mem_of_mem_insertSorted h with rfl | h
    · exact isEntry.2.2.2
    · exact hd.free entry h

theorem Made.named (hd : Made d) : Named d := by
  induction hd with
  | empty file => exact ⟨fun _ _ h => (by cases h), by simp⟩
  | insert key name _ ok ih =>
    obtain ⟨isEntry, rfl⟩ := insert_eq_ok ok
    exact ih.withEntry isEntry
  | store file _ ih => exact ⟨ih.entry, ih.free⟩

/-- A name that is found is that of an entry, and holds no quote. -/
theorem Made.entry_of_get? (hd : Made d) (h : d.get? chain = some name) :
    ∃ key, (key, name) ∈ d.entries ∧ Text.quote ∉ name.toList := by
  obtain ⟨key, found, -⟩ := hd.named.entry chain name h
  obtain ⟨before, after, same, -⟩ := List.lookup_eq_some_iff.1 found
  have member : (key, name) ∈ d.entries := by simp [same]
  exact ⟨key, member, by simpa [hasQuote] using hd.named.free _ member⟩

/-- Names are kept without the blanks around them. -/
theorem Made.trimmed_of_get? (hd : Made d) (h : d.get? chain = some name) :
    Text.trimmed name = name := by
  induction hd with
  | empty file => cases h
  | insert key other _ ok ih =>
    obtain ⟨-, rfl⟩ := insert_eq_ok ok
    rw [get?_withEntry] at h
    split at h
    · cases h
      exact Text.trimmed_trimmed other
    · exact ih h
  | store file _ ih => exact ih h

/-- After an addition, whether it could be saved or not, a chain bears the new name or the name
that it had. -/
theorem get?_put {part : String} (h : (d.put key name).2.get? chain = some part) :
    part = Text.trimmed name ∨ d.get? chain = some part := by
  have added (h : (d.withEntry key name).get? chain = some part) :
      part = Text.trimmed name ∨ d.get? chain = some part := by
    rw [get?_withEntry] at h
    split at h
    · exact .inl (Option.some.inj h).symm
    · exact .inr h
  have outcome := put_outcome d key name
  generalize d.put key name = result at outcome h
  cases outcome with
  | present _ => exact .inr h
  | refused _ _ => exact .inr h
  | unsaved _ _ _ _ => exact added h
  | saved e _ _ saved =>
    refine added ?_
    rwa [get?, ← (save_eq_ok saved).2]

end KinQuery.Dictionary
