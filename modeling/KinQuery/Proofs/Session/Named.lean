import KinQuery.Proofs.Evaluation.Literal
import KinQuery.Proofs.Evaluation.Naming
import KinQuery.Proofs.Evaluation.Task

/-! The names that sessions define: they are proper, and none of them is that of a function.

Queries keep it so, whatever functions are registered, since a definition is refused unless its
name is free, and a function cannot be registered under a name that is defined. -/
namespace KinQuery.Session

variable {s t : Session} {h : HostFunction} {task : Task} {v : Value} {name : String}

/-- Definitions bear proper names, and none hides a function. -/
structure IsNamed (s : Session) : Prop where
  proper : ∀ entry ∈ s.definitions, IsProper entry.1
  apart : ∀ entry ∈ s.definitions, s.function? entry.1 = none

namespace IsNamed

theorem sameNames (named : s.IsNamed) (names : s.SameNames t) : t.IsNamed := by
  refine ⟨?_, ?_⟩
  · rw [names.definitions]
    exact named.proper
  · rw [names.definitions]
    unfold function?
    rw [names.hosts]
    exact named.apart

theorem settle (named : s.IsNamed) (names : t.SameNames s) (new : task.IsNew t) :
    (task.settle v s).IsNamed := by
  refine ⟨?_, ?_⟩
  · unfold Task.settle
    split
    · rename_i name given
      exact List.forall_mem_cons.2 ⟨⟨new.reference name given, new.keyword name given⟩, named.proper⟩
    · exact named.proper
  · unfold Task.settle
    split
    · rename_i name given
      refine List.forall_mem_cons.2 ⟨?_, named.apart⟩
      have function := new.function name given
      unfold function? at function ⊢
      rwa [names.hosts]
    · exact named.apart

theorem register (named : s.IsNamed) (registered : s.register h = .ok t) : t.IsNamed := by
  unfold Session.register at registered
  split at registered
  · cases registered
  · rename_i free
    cases registered
    simp only [Bool.or_eq_true, not_or, Bool.not_eq_true, Option.isSome_eq_false_iff,
      Option.isNone_iff_eq_none] at free
    refine ⟨named.proper, fun entry member => ?_⟩
    refine function?_register (named.apart entry member) fun same => ?_
    have undefined := List.lookup_eq_none_iff.1 free.2 entry member
    simp [same] at undefined

theorem exec (named : s.IsNamed) (depth : Nat) (query : String) :
    (s.exec depth query).2.IsNamed := by
  have start : (s.mapCache .discard).IsNamed := named.sameNames ⟨rfl, rfl⟩
  have evaluated (task : Task) := eval_sameNames depth task.term (s.mapCache .discard)
  have executed := s.exec_executed depth query
  generalize s.exec depth query = result at executed
  cases executed with
  | refused failure _ => exact start.sameNames ⟨rfl, rfl⟩
  | failed task halt t _ run =>
    have names := run ▸ evaluated task
    exact (start.sameNames names).sameNames ⟨rfl, rfl⟩
  | answered task v t asked run =>
    have names := run ▸ evaluated task
    exact ((start.sameNames names).settle names (task_isNew asked)).sameNames ⟨rfl, rfl⟩

/-- What is no name for definitions is not defined. -/
theorem undefined (named : s.IsNamed) (improper : ¬IsProper name) : s.definition? name = none := by
  cases defined : s.definition? name with
  | none => rfl
  | some v => exact absurd (named.proper _ (definition?_mem defined)) improper

theorem undefined_primitive (named : s.IsNamed) (p : Primitive) :
    s.definition? p.name = none := by
  cases defined : s.definition? p.name with
  | none => rfl
  | some v =>
    have unknown := named.apart _ (definition?_mem defined)
    rw [function?, p.ofName?_name] at unknown
    cases unknown

end IsNamed
end KinQuery.Session
