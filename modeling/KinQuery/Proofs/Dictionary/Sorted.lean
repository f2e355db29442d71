import KinQuery.Dictionary
import Mathlib.Data.String.Basic

/-! Lists of pairs sorted by key, as the entries of a dictionary are kept. -/
namespace KinQuery.Dictionary

variable {key name : String} {entries : List (String × String)}

/-- Every key comes before those that follow it; so no key stands twice. -/
def IsSorted (entries : List (String × String)) : Prop :=
  entries.Pairwise fun a b => a.1 < b.1

theorem lookup_cons_eq {β : Type} (key : String) (entry : String × β) (entries : List (String × β)) :
    (entry :: entries).lookup key = if key = entry.1 then some entry.2 else entries.lookup key := by
  rw [List.lookup_cons]
  split
  · rename_i same
    rw [if_pos (beq_iff_eq.1 same)]
  · rename_i differ
    rw [if_neg (by simpa using differ)]

theorem lookup_insertSorted_self : (insertSorted key name entries).lookup key = some name := by
  induction entries with
  | nil => simp [insertSorted]
  | cons entry entries ih =>
    unfold insertSorted
    split
    · simp
    · split
      · simp
      · rename_i ne _
        rw [lookup_cons_eq, if_neg ne, ih]

theorem lookup_insertSorted_ne {other : String} (h : other ≠ key) :
    (insertSorted key name entries).lookup other = entries.lookup other := by
  induction entries with
  | nil => simp [insertSorted, h]
  | cons entry entries ih =>
    unfold insertSorted
    split
    · rename_i same
      simp [lookup_cons_eq, ← same, h]
    · split
      · simp [lookup_cons_eq, h]
      · simp [lookup_cons_eq, ih]

theorem mem_of_mem_insertSorted {entry : String × String}
    (h : entry ∈ insertSorted key name entries) : entry = (key, name) ∨ entry ∈ entries := by
  induction entries with
  | nil => simpa [insertSorted] using h
  | cons first entries ih =>
    unfold insertSorted at h
    split at h
    · rcases List.mem_cons.1 h with rfl | h
      · exact .inl rfl
      · exact .inr (List.mem_cons_of_mem _ h)
    · split at h
      · exact List.mem_cons.1 h
      · rcases List.mem_cons.1 h with rfl | h
        · exact .inr List.mem_cons_self
        · exact (ih h).imp_right (List.mem_cons_of_mem _)

theorem insertSorted_isSorted (h : IsSorted entries) : IsSorted (insertSorted key name entries) := by
  induction entries with
  | nil => simp [insertSorted, IsSorted]
  | cons first entries ih =>
    obtain ⟨before, rest⟩ := List.pairwise_cons.1 h
    unfold insertSorted
    split
    · rename_i same
      exact List.pairwise_cons.2 ⟨fun entry hentry => same ▸ before entry hentry, rest⟩
    · split
      · rename_i less
        refine List.pairwise_cons.2 ⟨fun entry hentry => ?_, h⟩
        rcases List.mem_cons.1 hentry with rfl | hentry
        · exact less
        · exact less.trans (before entry hentry)
      · rename_i ne notLess
        have greater : first.1 < key := lt_of_le_of_ne (not_lt.1 notLess) (Ne.symm ne)
        refine List.pairwise_cons.2 ⟨fun entry hentry => ?_, ih rest⟩
        rcases mem_of_mem_insertSorted hentry with rfl | hentry
        · exact greater
        · exact before entry hentry

/-- A new key makes the list longer by one. -/
theorem length_insertSorted (fresh : entries.lookup key = none) :
    (insertSorted key name entries).length = entries.length + 1 := by
  induction entries with
  | nil => simp [insertSorted]
  | cons first entries ih =>
    rw [lookup_cons_eq] at fresh
    split at fresh
    · cases fresh
    · rename_i ne
      unfold insertSorted
      rw [if_neg ne]
      split <;> simp [ih fresh]

/-- What comes after everything is put at the end. -/
theorem insertSorted_append (greatest : ∀ entry ∈ entries, entry.1 < key) :
    insertSorted key name entries = entries ++ [(key, name)] := by
  induction entries with
  | nil => rfl
  | cons first entries ih =>
    obtain ⟨before, rest⟩ := List.forall_mem_cons.1 greatest
    have ne : key ≠ first.1 := fun same => absurd before (same ▸ lt_irrefl _)
    unfold insertSorted
    rw [if_neg ne, if_neg (not_lt.2 before.le), ih rest]
    rfl

end KinQuery.Dictionary
