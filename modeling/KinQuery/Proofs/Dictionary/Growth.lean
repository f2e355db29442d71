import KinQuery.Proofs.Dictionary.Sorted

/-! What additions do to a dictionary.

An addition either leaves the dictionary as it was or makes it longer by one entry, whether
the entry can be saved or not. -/
namespace KinQuery.Dictionary

variable {d e : Dictionary} {key name : String}

/-- The dictionary with one more entry in memory. -/
def withEntry (d : Dictionary) (key name : String) : Dictionary :=
  { d with
    entries := insertSorted (normalKey key) (Text.trimmed name) d.entries
    chains := (expand (keyTerms key)).map (·, Text.trimmed name) ++ d.chains }

/-- What an entry has to be like to be added. -/
def IsEntry (key name : String) : Prop :=
  (∀ term ∈ keyTerms key, term ≠ "") ∧ Text.trimmed name ≠ "" ∧
    hasQuote (normalKey key) = false ∧ hasQuote (Text.trimmed name) = false

theorem insert_of_isEntry (h : IsEntry key name) : d.insert key name = .ok (d.withEntry key name) := by
  obtain ⟨terms, name, quotes, nameQuotes⟩ := h
  have terms : (keyTerms key).any (·.isEmpty) = false := by simpa using terms
  simp [insert, withEntry, terms, name, quotes, nameQuotes]

theorem insert_eq_ok (h : d.insert key name = .ok e) :
    IsEntry key name ∧ e = d.withEntry key name := by
  unfold insert at h
  dsimp only at h
  split at h
  · cases h
  · rename_i valid
    simp only [Bool.or_eq_true, not_or, Bool.not_eq_true] at valid
    obtain ⟨⟨⟨terms, name⟩, quotes⟩, nameQuotes⟩ := valid
    refine ⟨⟨?_, ?_, quotes, nameQuotes⟩, (Except.ok.inj h).symm⟩
    · simpa using terms
    · simpa using name

theorem save_eq_ok (h : d.save = .ok e) : e.entries = d.entries ∧ e.chains = d.chains := by
  unfold save at h
  split at h
  · cases h
    exact ⟨rfl, rfl⟩
  · split at h
    · cases h
    · cases h
      exact ⟨rfl, rfl⟩

/-- The ways in which an addition can end. -/
inductive Put (d : Dictionary) (key name : String) : Except Failure Bool × Dictionary → Prop
  | present : (d.entries.lookup (normalKey key)).isSome = true → Put d key name (.ok false, d)
  | refused (failure : Failure) : d.insert key name = .error failure →
      Put d key name (.error failure, d)
  | unsaved (failure : Failure) : d.entries.lookup (normalKey key) = none → IsEntry key name →
      (d.withEntry key name).save = .error failure →
        Put d key name (.error failure, d.withEntry key name)
  | saved (e : Dictionary) : d.entries.lookup (normalKey key) = none → IsEntry key name →
      (d.withEntry key name).save = .ok e → Put d key name (.ok true, e)

theorem put_outcome (d : Dictionary) (key name : String) : Put d key name (d.put key name) := by
  unfold put
  split
  · rename_i present
    exact .present present
  · rename_i absent
    have fresh : d.entries.lookup (normalKey key) = none := by
      simpa only [Bool.not_eq_true, Option.isSome_eq_false_iff, Option.isNone_iff_eq_none] using absent
    split
    · rename_i failure refused
      exact .refused failure refused
    · rename_i added inserted
      obtain ⟨isEntry, rfl⟩ := insert_eq_ok inserted
      split
      · rename_i failure unsaved
        exact .unsaved failure fresh isEntry unsaved
      · rename_i saved hsaved
        exact .saved saved fresh isEntry hsaved

/-- The second dictionary came from the first by additions of these entries, in this order.
Each had a key that was new. -/
inductive Grows (d : Dictionary) : List (String × String) → Dictionary → Prop
  | none : Grows d [] d
  | add {e f : Dictionary} {added : List (String × String)} (key name : String) :
      Grows d added e → e.entries.lookup (normalKey key) = .none → IsEntry key name →
        f.entries = (e.withEntry key name).entries → f.chains = (e.withEntry key name).chains →
          Grows d (added ++ [(key, name)]) f

namespace Grows
variable {f : Dictionary} {added others : List (String × String)}

theorem trans (first : Grows d added e) (second : Grows e others f) :
    Grows d (added ++ others) f := by
  induction second with
  | none => simpa using first
  | add key name _ fresh isEntry entries chains ih =>
    rw [← List.append_assoc]
    exact .add key name ih fresh isEntry entries chains

theorem length_entries (h : Grows d added e) :
    e.entries.length = d.entries.length + added.length := by
  induction h with
  | none => simp
  | add key name _ fresh isEntry entries chains ih =>
    rw [entries, withEntry, length_insertSorted fresh, ih, List.length_append]
    rfl

theorem eq_of_nil (h : Grows d [] e) : e = d := by
  generalize hadded : ([] : List (String × String)) = added at h
  cases h with
  | none => rfl
  | add key name _ fresh isEntry entries chains => simp at hadded

theorem eq_iff (h : Grows d added e) : e = d ↔ added = [] := by
  constructor
  · rintro rfl
    have := h.length_entries
    exact List.length_eq_zero_iff.1 (by omega)
  · rintro rfl
    exact h.eq_of_nil

/-- An addition is a growth by one entry or by none; the answer does not tell which. -/
theorem of_put (d : Dictionary) (key name : String) :
    ∃ added, Grows d added (d.put key name).2 ∧ ((d.put key name).1 = .ok true → added ≠ []) := by
  have outcome := put_outcome d key name
  generalize d.put key name = result at outcome
  cases outcome with
  | present _ => exact ⟨[], .none, by simp⟩
  | refused failure _ => exact ⟨[], .none, by simp⟩
  | unsaved failure fresh isEntry _ =>
    exact ⟨[(key, name)], .add key name (.none) fresh isEntry rfl rfl, by simp⟩
  | saved e fresh isEntry hsaved =>
    obtain ⟨entries, chains⟩ := save_eq_ok hsaved
    exact ⟨[(key, name)], .add key name (.none) fresh isEntry entries chains, by simp⟩

end Grows
end KinQuery.Dictionary
