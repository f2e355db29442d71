import KinQuery.Proofs.Session.FailedQuery
import KinQuery.Proofs.Session.Tame

/-! Additions to the dictionary that come to nothing.

An entry is checked before anything changes, but it is in memory before the file is written. So
an addition that is refused, or finds its key taken, changes nothing; one whose file cannot be
written has happened all the same, and since it fails, nobody forgets the results that depend on
the names of before. -/
namespace KinQuery

namespace Dictionary
variable {d e : Dictionary} {key name : String}

/-- The same entries, and the same names for all chains. -/
structure Same (d e : Dictionary) : Prop where
  entries : e.entries = d.entries
  names : ∀ chain, e.get? chain = d.get? chain

/-- An entry that could be added, if only the file could be written. -/
structure IsStranded (d : Dictionary) (key name : String) : Prop where
  fresh : d.entries.lookup (normalKey key) = none
  isEntry : IsEntry key name
  hindered : ¬ d.IsWritable

theorem entries_withEntry_ne (fresh : d.entries.lookup (normalKey key) = none) :
    (d.withEntry key name).entries ≠ d.entries := by
  intro same
  have longer : (d.withEntry key name).entries.length = d.entries.length + 1 :=
    length_insertSorted fresh
  rw [same] at longer
  omega

theorem save_hindered (h : ¬ d.IsWritable) : ∃ fault, d.save = .error (.storage fault) := by
  simp only [IsWritable, not_forall] at h
  obtain ⟨file, hfile, obstacle⟩ := h
  obtain ⟨fault, hfault⟩ := Option.ne_none_iff_exists'.1 obstacle
  exact ⟨fault, by simp [Dictionary.save, hfile, hfault]⟩

/-- A stranded entry is in memory, and the addition has failed. -/
theorem IsStranded.put (h : d.IsStranded key name) :
    ∃ fault, d.put key name = (.error (.storage fault), d.withEntry key name) := by
  have hindered : ¬ (d.withEntry key name).IsWritable := h.hindered
  obtain ⟨fault, unsaved⟩ := save_hindered hindered
  refine ⟨fault, ?_⟩
  simp [Dictionary.put, h.fresh, insert_of_isEntry h.isEntry, unsaved]

/-- Once an entry was stranded, its key is taken, and another attempt is not even made. -/
theorem IsStranded.put_again (h : d.IsStranded key name) (other : String) :
    (d.put key name).2.put key other = (.ok false, (d.put key name).2) := by
  obtain ⟨fault, stranded⟩ := h.put
  have taken : (d.withEntry key name).entries.lookup (normalKey key) = some (Text.trimmed name) :=
    lookup_insertSorted_self
  rw [stranded, Dictionary.put, taken]
  rfl

/-- Any other addition is made altogether or not at all. -/
theorem put_of_not_isStranded (h : ¬ d.IsStranded key name) :
    (d.put key name).1 = .ok true ∨ (d.put key name).2 = d := by
  have outcome := put_outcome d key name
  generalize d.put key name = result at outcome
  cases outcome with
  | present _ => exact .inr rfl
  | refused _ _ => exact .inr rfl
  | saved e _ _ _ => exact .inl rfl
  | unsaved failure fresh isEntry unsaved =>
    have hindered : ¬ d.IsWritable := by
      intro writable
      have writable : (d.withEntry key name).IsWritable := writable
      obtain ⟨e, saved, -⟩ := writable.save
      rw [saved] at unsaved
      cases unsaved
    exact absurd ⟨fresh, isEntry, hindered⟩ h

theorem put_same_iff (notMade : (d.put key name).1 ≠ .ok true) :
    d.Same (d.put key name).2 ↔ ¬ d.IsStranded key name := by
  constructor
  · intro same stranded
    obtain ⟨fault, hput⟩ := stranded.put
    rw [hput] at same
    exact entries_withEntry_ne stranded.fresh same.entries
  · intro free
    rw [(put_of_not_isStranded free).resolve_left notMade]
    exact ⟨rfl, fun _ => rfl⟩

end Dictionary

namespace Session
variable {s : Session} {key name : String}

/-- An addition that is not made leaves the entries and all names as they were, and one that
changes the name of a chain leaves no results, except where the entry is stranded: then the
entries have changed, and every result is still there. -/
theorem putKinshipTerm_whole_iff (s : Session) (key name : String) :
    (∀ d : Dictionary, (d.put key name).1 ≠ .ok true →
      (d.Same (d.put key name).2 ↔ ¬ d.IsStranded key name)) ∧
    (∀ chain, (s.putKinshipTerm key name).2.dictionary.get? chain ≠ s.dictionary.get? chain →
      (s.putKinshipTerm key name).2.cache.entries = [] ∧
          (s.putKinshipTerm key name).2.cache.pending = [] ∨
        s.dictionary.IsStranded key name ∧ (s.putKinshipTerm key name).2.cache = s.cache) := by
  refine ⟨fun d => Dictionary.put_same_iff, fun chain changed => ?_⟩
  rw [putKinshipTerm_eq] at changed ⊢
  dsimp only at changed ⊢
  by_cases stranded : s.dictionary.IsStranded key name
  · obtain ⟨fault, hput⟩ := stranded.put
    exact .inr ⟨stranded, by simp [hput]⟩
  · rcases Dictionary.put_of_not_isStranded stranded with made | same
    · rw [if_pos made]
      exact .inl ⟨rfl, rfl⟩
    · rw [same] at changed
      exact absurd rfl changed

/-- Beside the entry of a dictionary, an entry with a quote comes to nothing, and one that names a
chain leaves no result of before. -/
theorem putKinshipTerm_whole_iff_kept :
    let start := { fresh with dictionary := (Dictionary.empty.put "x,y" "z").2 }
    let s := (start.exec 4 "(shorten (list 'a' 'b'))").2
    s.dictionary.entries = [("x,y", "z")] ∧ s.cache.size = 2 ∧
      (s.dictionary.put "a,b" "o'c").1 ≠ .ok true ∧
      s.dictionary.Same (s.dictionary.put "a,b" "o'c").2 ∧
      (s.putKinshipTerm "a,b" "c").2.dictionary.get? ["a", "b"] ≠
        s.dictionary.get? ["a", "b"] ∧
      ((s.putKinshipTerm "a,b" "c").2.cache.entries = [] ∧
          (s.putKinshipTerm "a,b" "c").2.cache.pending = [] ∨
        s.dictionary.IsStranded "a,b" "c" ∧ (s.putKinshipTerm "a,b" "c").2.cache = s.cache) := by
  intro start s
  have file : s.dictionary.file = none := by decide +kernel
  have refused : (s.dictionary.put "a,b" "o'c").1 ≠ .ok true := by decide +kernel
  have changed : (s.putKinshipTerm "a,b" "c").2.dictionary.get? ["a", "b"] ≠
      s.dictionary.get? ["a", "b"] := by decide +kernel
  have free : ¬ s.dictionary.IsStranded "a,b" "o'c" := fun h =>
    h.hindered fun _ hfile => by rw [file] at hfile; cases hfile
  refine ⟨by decide +kernel, by decide +kernel, refused, ?_, changed, ?_⟩
  · exact ((putKinshipTerm_whole_iff s "a,b" "o'c").1 s.dictionary refused).2 free
  · exact (putKinshipTerm_whole_iff s "a,b" "c").2 ["a", "b"] changed

/-- The file of the dictionary cannot be written. The addition fails, and trying again is
refused; but the chain has its name, and only the result that was kept does not show it. -/
theorem putKinshipTerm_strands :
    let query := "(shorten (list 'a' 'b'))"
    let start := { fresh with dictionary := { file := some { obstacle := some .absent } } }
    let s := (start.exec 4 query).2
    let t := (s.putKinshipTerm "a,b" "c").2
    (s.putKinshipTerm "a,b" "c").1 = .error (.storage .absent) ∧
      s.dictionary.entries = [] ∧ t.dictionary.entries = [("a,b", "c")] ∧
      s.dictionary.get? ["a", "b"] = none ∧ t.dictionary.get? ["a", "b"] = some "c" ∧
      (t.putKinshipTerm "a,b" "c").1 = .ok false ∧
      (t.exec 4 query).1.map Value.term = .ok "(list 'a' 'b')" ∧
      ((t.setCaching false).exec 4 query).1.map Value.term = .ok "(list 'c')" := by
  intro query
  have read : readQuery "(shorten (list 'a' 'b'))" = .ok (.compound [.atom "shorten",
      .compound [.atom "list", .atom "'a'", .atom "'b'"]]) := rfl
  simp only [query, exec_of_read read]
  refine ⟨?_, ?_, ?_, ?_, ?_, ?_, ?_, ?_⟩ <;> decide +kernel

end Session
end KinQuery
