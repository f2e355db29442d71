import KinQuery.Proofs.Dictionary.Sorted
import KinQuery.Proofs.Evaluation.Vocabulary
import KinQuery.Session.Cache

/-! The cache, operation by operation: what is in it afterwards, and what is found.

A result is put in only if nothing is found for its key. So the pending results are the first with
their keys, none has the key of a committed one, and committing adds them all to what is there. -/
namespace KinQuery.Cache

variable {c : Cache} {key : String} {v : Value} {entry : String × Value}

theorem mem_of_get? (h : c.get? key = some v) : (key, v) ∈ c.entries ∨ (key, v) ∈ c.pending := by
  rcases Option.or_eq_some_iff.1 h with h | ⟨-, h⟩
  · exact .inl (Bindings.mem_of_ofList h)
  · exact .inr (Bindings.mem_of_ofList h)

/-- A cache that keeps no results, or is off, has none that may be used. -/
theorem entries_of_unkept (unkept : c.size = 0 ∨ c.enabled = false) (enabled : c.enabled = true) :
    c.entries = [] := by
  rcases unkept with empty | disabled
  · exact List.eq_nil_of_length_eq_zero empty
  · rw [disabled] at enabled
    cases enabled

theorem get?_discard_of_unkept (unkept : c.size = 0 ∨ c.enabled = false)
    (enabled : c.enabled = true) (key : String) : c.discard.get? key = none := by
  simp [get?, discard, entries_of_unkept unkept enabled]

/-! ### Putting results in -/

theorem put_of_get? (h : c.get? key = some v) (w : Value) : c.put key w = c := by
  simp [put, h]

theorem put_of_none (h : c.get? key = none) (v : Value) :
    c.put key v = { c with pending := (key, v) :: c.pending } := by
  simp [put, h]

@[simp] theorem put_entries (c : Cache) (key : String) (v : Value) :
    (c.put key v).entries = c.entries := by
  unfold put
  split <;> rfl

@[simp] theorem put_enabled (c : Cache) (key : String) (v : Value) :
    (c.put key v).enabled = c.enabled := by
  unfold put
  split <;> rfl

theorem mem_put_pending (h : entry ∈ (c.put key v).pending) :
    entry = (key, v) ∨ entry ∈ c.pending := by
  unfold put at h
  split at h
  · exact .inr h
  · exact List.mem_cons.1 h

theorem get?_put (c : Cache) (key : String) (v : Value) (other : String) :
    (c.put key v).get? other = (c.get? other).or (if other = key then some v else none) := by
  cases found : c.get? key with
  | some w =>
    rw [put_of_get? found]
    split
    · rename_i same
      rw [same, found]
      rfl
    · rw [Option.or_none]
  | none =>
    rw [put_of_none found, get?, get?, Dictionary.lookup_cons_eq]
    dsimp only
    split
    · rename_i same
      obtain ⟨uncommitted, unpending⟩ := Option.or_eq_none_iff.1 found
      rw [same, uncommitted, unpending]
      rfl
    · rw [Option.or_none]

/-- Puts results in, one after the other. -/
def putAll (c : Cache) (results : List (String × Value)) : Cache :=
  results.foldl (fun c result => c.put result.1 result.2) c

@[simp] theorem putAll_entries (c : Cache) (results : List (String × Value)) :
    (c.putAll results).entries = c.entries := by
  unfold putAll
  induction results generalizing c with
  | nil => rfl
  | cons result results ih => rw [List.foldl_cons, ih, put_entries]

/-- The first result put in for a key is the one that is found. -/
theorem get?_putAll (c : Cache) (results : List (String × Value)) (key : String) :
    (c.putAll results).get? key = (c.get? key).or (results.lookup key) := by
  unfold putAll
  induction results generalizing c with
  | nil => simp
  | cons result results ih =>
    rw [List.foldl_cons, ih, get?_put, Option.or_assoc, Dictionary.lookup_cons_eq]
    split <;> rfl

/-! ### Committing -/

theorem mem_foldl_keep {pending entries : List (String × Value)}
    (h : entry ∈ pending.foldl keep entries) : entry ∈ pending ∨ entry ∈ entries := by
  induction pending generalizing entries with
  | nil => exact .inr h
  | cons first pending ih =>
    rcases ih h with h | h
    · exact .inl (List.mem_cons_of_mem _ h)
    · rw [keep] at h
      split at h
      · exact .inr h
      · rcases List.mem_cons.1 h with rfl | h
        · exact .inl List.mem_cons_self
        · exact .inr h

/-- What is committed was pending or committed before. -/
theorem mem_commit (h : entry ∈ c.commit.entries) : entry ∈ c.pending ∨ entry ∈ c.entries :=
  mem_foldl_keep h

/-! ### What stays committed -/

/-- What is committed in the first cache is committed in the second. -/
def Persists (c d : Cache) : Prop :=
  ∀ key v, c.entries.lookup key = some v → d.entries.lookup key = some v

theorem Persists.refl (c : Cache) : c.Persists c :=
  fun _ _ committed => committed

theorem Persists.trans {c d e : Cache} (h : c.Persists d) (h' : d.Persists e) : c.Persists e :=
  fun key v committed => h' key v (h key v committed)

theorem persists_put (c : Cache) (key : String) (v : Value) : c.Persists (c.put key v) :=
  fun _ _ committed => by rwa [put_entries]

theorem persists_discard (c : Cache) : c.Persists c.discard :=
  fun _ _ committed => committed

theorem lookup_keep {entries : List (String × Value)} (committed : entries.lookup key = some v)
    (entry : String × Value) : (keep entries entry).lookup key = some v := by
  unfold keep
  split
  · exact committed
  · rename_i new
    have different : key ≠ entry.1 := by
      rintro rfl
      rw [committed] at new
      exact new rfl
    rwa [Dictionary.lookup_cons_eq, if_neg different]

/-- Committing adds to what is committed and changes nothing of it. -/
theorem persists_commit (c : Cache) : c.Persists c.commit := by
  intro key v committed
  change (c.pending.foldl keep c.entries).lookup key = some v
  generalize c.entries = entries at committed
  induction c.pending generalizing entries with
  | nil => exact committed
  | cons entry pending ih => exact ih (keep entries entry) (lookup_keep committed entry)

/-- No key is pending twice, or pending and committed. -/
structure IsDistinct (c : Cache) : Prop where
  nodup : (c.pending.map (·.1)).Nodup
  uncommitted : ∀ entry ∈ c.pending, c.entries.lookup entry.1 = none

theorem IsDistinct.put (h : c.IsDistinct) (key : String) (v : Value) :
    (c.put key v).IsDistinct := by
  cases found : c.get? key with
  | some w => rwa [put_of_get? found]
  | none =>
    obtain ⟨uncommitted, unpending⟩ := Option.or_eq_none_iff.1 found
    rw [put_of_none found]
    refine ⟨List.nodup_cons.2 ⟨fun member => ?_, h.nodup⟩,
      List.forall_mem_cons.2 ⟨uncommitted, h.uncommitted⟩⟩
    obtain ⟨entry, member, same⟩ := List.mem_map.1 member
    have other := List.lookup_eq_none_iff.1 unpending entry member
    simp [same] at other

theorem IsDistinct.putAll (h : c.IsDistinct) (results : List (String × Value)) :
    (c.putAll results).IsDistinct := by
  unfold Cache.putAll
  induction results generalizing c with
  | nil => exact h
  | cons result results ih => exact ih (h.put result.1 result.2)

theorem isDistinct_discard (c : Cache) : c.discard.IsDistinct :=
  ⟨List.nodup_nil, by simp [discard]⟩

theorem lookup_of_mem {entries : List (String × Value)} (nodup : (entries.map (·.1)).Nodup)
    (member : (key, v) ∈ entries) : entries.lookup key = some v := by
  induction entries with
  | nil => cases member
  | cons entry entries ih =>
    obtain ⟨fresh, nodup⟩ := List.nodup_cons.1 nodup
    rw [Dictionary.lookup_cons_eq]
    rcases List.mem_cons.1 member with rfl | later
    · exact if_pos rfl
    · have different : key ≠ entry.1 := fun same => fresh (List.mem_map.2 ⟨(key, v), later, same⟩)
      rw [if_neg different, ih nodup later]

theorem IsDistinct.mem_pending_iff (h : c.IsDistinct) :
    (key, v) ∈ c.pending ↔ c.entries.lookup key = none ∧ c.get? key = some v := by
  constructor
  · intro member
    have uncommitted : c.entries.lookup key = none := h.uncommitted (key, v) member
    exact ⟨uncommitted, by rw [get?, uncommitted, lookup_of_mem h.nodup member]; rfl⟩
  · rintro ⟨uncommitted, found⟩
    rw [get?, uncommitted] at found
    exact Bindings.mem_of_ofList found

theorem foldl_keep {pending entries : List (String × Value)} (nodup : (pending.map (·.1)).Nodup)
    (uncommitted : ∀ entry ∈ pending, entries.lookup entry.1 = none) :
    pending.foldl keep entries = pending.reverse ++ entries := by
  induction pending generalizing entries with
  | nil => rfl
  | cons entry pending ih =>
    obtain ⟨fresh, nodup⟩ := List.nodup_cons.1 nodup
    obtain ⟨first, rest⟩ := List.forall_mem_cons.1 uncommitted
    have kept : keep entries entry = entry :: entries := by simp [keep, first]
    rw [List.foldl_cons, kept, ih nodup, List.reverse_cons, List.append_assoc]
    · rfl
    · intro other member
      have different : other.1 ≠ entry.1 := fun same => fresh (List.mem_map.2 ⟨other, member, same⟩)
      rw [Dictionary.lookup_cons_eq, if_neg different]
      exact rest other member

/-- The pending results are committed on top of the others. -/
theorem IsDistinct.commit_entries (h : c.IsDistinct) :
    c.commit.entries = c.pending.reverse ++ c.entries :=
  foldl_keep h.nodup h.uncommitted

end KinQuery.Cache
