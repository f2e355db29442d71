import KinQuery.Proofs.Evaluation.Contract
import KinQuery.Proofs.Evaluation.Primitives
import KinQuery.Proofs.Evaluation.Task
import KinQuery.Proofs.Session.Cache

/-! Sessions all of whose values have a property, and the steps of evaluation and of queries
that leave it so. -/
namespace KinQuery

variable {P : Value → Prop} {s t : Session} {name key : String} {v : Value} {f : Function Value}

namespace Session

/-- What is registered, defined, kept or was given to registered functions has the property. -/
structure All (P : Value → Prop) (s : Session) : Prop where
  hosts : ∀ h ∈ s.hosts, P (.function (.host h))
  definitions : ∀ entry ∈ s.definitions, P entry.2
  entries : ∀ entry ∈ s.cache.entries, P entry.2
  pending : ∀ entry ∈ s.cache.pending, P entry.2
  calls : ∀ call ∈ s.hostCalls, ∀ v ∈ call.2, P v

theorem SameButTree.all (h : s.SameButTree t) (hs : s.All P) : t.All P := by
  rcases h with rfl | rfl
  · exact hs
  · exact ⟨hs.hosts, hs.definitions, hs.entries, hs.pending, hs.calls⟩

namespace All

theorem of_empty (h : s.hosts = []) (definitions : s.definitions = [])
    (entries : s.cache.entries = []) (pending : s.cache.pending = []) (calls : s.hostCalls = []) :
    s.All P := by
  refine ⟨?_, ?_, ?_, ?_, ?_⟩ <;> simp [*]

theorem put (hs : s.All P) (hv : P v) (key : String) :
    (s.mapCache (·.put key v)).All P := by
  refine ⟨hs.hosts, hs.definitions, ?_, fun entry member => ?_, hs.calls⟩
  · simpa [mapCache] using hs.entries
  · rcases Cache.mem_put_pending member with rfl | member
    · exact hv
    · exact hs.pending entry member

theorem expunge (hs : s.All P) : s.expunge.All P :=
  ⟨hs.hosts, hs.definitions, by simp [Session.expunge, mapCache, Cache.expunge],
    by simp [Session.expunge, mapCache, Cache.expunge], hs.calls⟩

theorem setCaching (hs : s.All P) (enabled : Bool) : (s.setCaching enabled).All P :=
  ⟨hs.hosts, hs.definitions, hs.entries, hs.pending, hs.calls⟩

theorem edit (hs : s.All P) {change : Genealogy → Except Failure Genealogy}
    (h : s.edit change = .ok t) : t.All P := by
  unfold Session.edit at h
  cases hg : change s.genealogy with
  | error failure => rw [hg] at h; cases h
  | ok genealogy =>
    rw [hg] at h
    cases h
    exact ⟨hs.hosts, hs.definitions, by simp [Cache.expunge], by simp [Cache.expunge], hs.calls⟩

theorem putKinshipTerm (hs : s.All P) (key name : String) :
    (s.putKinshipTerm key name).2.All P := by
  unfold Session.putKinshipTerm
  split
  · exact ⟨hs.hosts, hs.definitions, by simp [Cache.expunge], by simp [Cache.expunge], hs.calls⟩
  · exact ⟨hs.hosts, hs.definitions, hs.entries, hs.pending, hs.calls⟩

theorem discard (hs : s.All P) : (s.mapCache .discard).All P :=
  ⟨hs.hosts, hs.definitions, hs.entries, by simp [mapCache, Cache.discard], hs.calls⟩

theorem commit (hs : s.All P) : (s.mapCache .commit).All P := by
  refine ⟨hs.hosts, hs.definitions, fun entry member => ?_, by simp [mapCache, Cache.commit],
    hs.calls⟩
  exact (Cache.mem_commit member).elim (hs.pending entry) (hs.entries entry)

theorem settle (hs : s.All P) (hv : P v) (task : Task) : (task.settle v s).All P := by
  unfold Task.settle
  split
  · exact ⟨hs.hosts, List.forall_mem_cons.2 ⟨hv, hs.definitions⟩, hs.entries, hs.pending, hs.calls⟩
  · exact hs

/-! ### What a session shows -/

theorem function (hs : s.All P)
    (primitive : ∀ p, Primitive.ofName? name = some p → P (.function (.primitive p)))
    (hf : s.function? name = some f) : P (.function f) := by
  unfold Session.function? at hf
  split at hf
  · rename_i p hp
    cases hf
    exact primitive p hp
  · obtain ⟨h, found, rfl⟩ := Option.map_eq_some_iff.1 hf
    exact hs.hosts h (List.mem_of_find?_eq_some found)

theorem atomAnswer (hs : s.All P) (transparent : Value.IsTransparent P)
    (primitive : ∀ p, Primitive.ofName? name = some p → P (.function (.primitive p)))
    (h : atomAnswer s name = .ok v) : P v := by
  rcases atomAnswer_ok h with plain | ⟨f, hf, rfl⟩ | defined
  · exact transparent.plain plain
  · exact hs.function primitive hf
  · exact hs.definitions _ (Session.definition?_mem defined)

theorem cached (hs : s.All P) (h : s.cache.get? key = some v) : P v := by
  exact (Cache.mem_of_get? h).elim (hs.entries _) (hs.pending _)

end All
end Session

namespace Run.Contract
variable {C : Contract} {query : String}

/-- What queries do before and after they evaluate keeps the contract too. -/
structure Outlasts (C : Contract) : Prop where
  discard : ∀ s, C.holds s → C.holds (s.mapCache .discard)
  commit : ∀ s, C.holds s → C.holds (s.mapCache .commit)
  settle : ∀ (task : Task) v s, C.holds s → C.value v → C.holds (task.settle v s)
  void : C.value .void

/-- A query keeps to the contract if its term does, and so does the value that it returns. -/
theorem Outlasts.exec (outlasts : C.Outlasts) (hs : C.holds s)
    (term : ∀ task, s.task query = .ok task → C.term task.term) (depth : Nat) :
    C.holds (s.exec depth query).2 ∧ ∀ v, (s.exec depth query).1 = .ok v → C.value v := by
  have start := outlasts.discard s hs
  have evaluated {task : Task} (asked : s.task query = .ok task) :=
    C.eval (term task asked) depth _ start
  have executed := s.exec_executed depth query
  generalize s.exec depth query = result at executed
  cases executed with
  | refused failure _ => exact ⟨outlasts.discard _ start, fun _ h => by cases h⟩
  | failed task halt t asked run =>
    obtain ⟨still, -⟩ := run ▸ evaluated asked
    exact ⟨outlasts.discard _ still, fun _ h => by cases h⟩
  | answered task v t asked run =>
    obtain ⟨still, -, value⟩ := run ▸ evaluated asked
    have hv := value v rfl
    refine ⟨outlasts.commit _ (outlasts.settle task v t still hv), ?_⟩
    rintro _ ⟨⟩
    unfold Task.answer
    split
    · exact outlasts.void
    · exact hv

end Run.Contract
end KinQuery
