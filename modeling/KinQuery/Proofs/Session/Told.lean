import KinQuery.Proofs.Session.Formed
import KinQuery.Proofs.Session.Named

/-! Sessions in which programs register functions, run queries and apply the functions that
these return.

As long as the registered functions leave caching as it is, all values in such sessions are
formed, and so are the values that queries return. -/
namespace KinQuery

variable {s t : Session} {v : Value} {h : HostFunction} {arguments answers : List Value}
  {depth : Nat} {query : String}

namespace Session

/-- All values are formed, definitions bear proper names, and none hides a function. -/
structure IsFormed (s : Session) : Prop where
  values : s.All Value.IsFormed
  proper : ∀ entry ∈ s.definitions, IsProper entry.1
  apart : ∀ entry ∈ s.definitions, s.function? entry.1 = none

/-- The sessions that a program can come to, with the values that its queries returned. -/
inductive Told : List Value → Session → Prop
  | start (genealogy : Genealogy) (dictionary : Dictionary) (today : Date) :
      Told [] { genealogy, dictionary, today }
  | answer (depth : Nat) (query : String) {answers : List Value} {s : Session} {v : Value} :
      (s.exec depth query).1 = .ok v → Told answers s → Told (v :: answers) (s.exec depth query).2
  | failure (depth : Nat) (query : String) {answers : List Value} {s : Session} {halt : Halt} :
      (s.exec depth query).1 = .error halt → Told answers s → Told answers (s.exec depth query).2
  | register {h : HostFunction} {answers : List Value} {s t : Session} :
      isReference h.name = true → h.action.isPassive = true → s.register h = .ok t →
        Told answers s → Told answers t
  | apply (depth : Nat) {f : Function Value} {arguments answers : List Value} {s : Session} :
      .function f ∈ answers → (∀ v ∈ arguments, v.IsFormed) → Told answers s →
        Told answers ((KinQuery.apply depth f arguments).run s).2
  | eval (depth : Nat) {t : Term Value} {answers : List Value} {s : Session} : t.IsFormed →
      Told answers s → Told answers ((KinQuery.eval depth t).run s).2
  | setCaching (enabled : Bool) {answers : List Value} {s : Session} :
      Told answers s → Told answers (s.setCaching enabled)
  | expunge {answers : List Value} {s : Session} : Told answers s → Told answers s.expunge
  | tree {answers : List Value} {s : Session} : Told answers s → Told answers s.tree.2
  | edit (change : Genealogy → Except Failure Genealogy) {answers : List Value} {s t : Session} :
      s.edit change = .ok t → Told answers s → Told answers t
  | putKinshipTerm (key name : String) {answers : List Value} {s : Session} :
      Told answers s → Told answers (s.putKinshipTerm key name).2

namespace IsFormed

theorem named (hs : s.IsFormed) : s.IsNamed :=
  ⟨hs.proper, hs.apart⟩

theorem of_named (named : s.IsNamed) (values : s.All Value.IsFormed) : s.IsFormed :=
  ⟨values, named.proper, named.apart⟩

theorem sameNames (hs : s.IsFormed) (names : s.SameNames t) (values : t.All Value.IsFormed) :
    t.IsFormed :=
  .of_named (hs.named.sameNames names) values

theorem task (hs : s.IsFormed) {task : Task} (h : s.task query = .ok task) :
    task.term.IsFormed := by
  obtain ⟨read, hread, rfl⟩ := task_eq_ok h
  obtain ⟨-, t, ht, term⟩ := taskAsRead_eq_ok hread
  have formed : read.term.IsFormed := by
    rcases term with same | ⟨parts, rfl, part⟩
    · exact same ▸ isFormed_of_readQuery ht
    · exact Term.isFormed_compound.1 (isFormed_of_readQuery ht) _ part
  exact formed.substitute fun name v hv => hs.values.definitions _ (definition?_mem hv)

/-- A query keeps a session formed, and so is the value that it returns. -/
theorem exec (hs : s.IsFormed) (depth : Nat) (query : String) :
    (s.exec depth query).2.IsFormed ∧ ∀ v, (s.exec depth query).1 = .ok v → v.IsFormed := by
  obtain ⟨values, value⟩ := formedContract_outlasts.exec hs.values (fun _ => hs.task) depth
  exact ⟨.of_named (hs.named.exec depth query) values, value⟩

theorem register (hs : s.IsFormed) (reference : isReference h.name = true)
    (passive : h.action.isPassive = true) (registered : s.register h = .ok t) : t.IsFormed := by
  refine .of_named (hs.named.register registered) ?_
  unfold Session.register at registered
  split at registered
  · cases registered
  · rename_i free
    cases registered
    simp only [Bool.or_eq_true, not_or, Bool.not_eq_true] at free
    have formed : (Value.function (.host h)).IsFormed :=
      Value.isFormed_host.2 ⟨⟨reference, free.1.1⟩, passive⟩
    refine ⟨fun other member => ?_, hs.values.definitions, hs.values.entries, hs.values.pending,
      hs.values.calls⟩
    rcases List.mem_append.1 member with old | new
    · exact hs.values.hosts other old
    · obtain rfl := List.mem_singleton.1 new
      exact formed

end IsFormed

/-- Whatever happened to a session, it is formed, and so are the values that were returned. -/
theorem Told.isFormed (told : Told answers s) :
    s.IsFormed ∧ ∀ v ∈ answers, v.IsFormed := by
  induction told with
  | start genealogy dictionary today =>
    exact ⟨⟨.of_empty rfl rfl rfl rfl rfl, by simp, by simp⟩, by simp⟩
  | answer depth query returned _ ih =>
    obtain ⟨still, value⟩ := ih.1.exec depth query
    exact ⟨still, List.forall_mem_cons.2 ⟨value _ returned, ih.2⟩⟩
  | failure depth query _ _ ih => exact ⟨(ih.1.exec depth query).1, ih.2⟩
  | register reference passive registered _ ih =>
    exact ⟨ih.1.register reference passive registered, ih.2⟩
  | @apply depth f arguments answers s returned good _ ih =>
    have named := (Run.namingContract.eval_and_apply depth).2 f arguments trivial fun _ _ => trivial
    have kept := (formedContract.eval_and_apply depth).2 f arguments (ih.2 _ returned) good
    exact ⟨ih.1.sameNames (named s trivial).2.1 (kept s ih.1.values).1, ih.2⟩
  | @eval depth t answers s good _ ih =>
    refine ⟨ih.1.sameNames (eval_sameNames depth t s) ?_, ih.2⟩
    exact (formedContract.eval good depth s ih.1.values).1
  | setCaching enabled _ ih =>
    exact ⟨ih.1.sameNames ⟨rfl, rfl⟩ (ih.1.values.setCaching enabled), ih.2⟩
  | expunge _ ih => exact ⟨ih.1.sameNames ⟨rfl, rfl⟩ ih.1.values.expunge, ih.2⟩
  | @tree answers s _ ih =>
    exact ⟨ih.1.sameNames ⟨rfl, rfl⟩ (SameButTree.all (.inr rfl) ih.1.values), ih.2⟩
  | @edit change answers s t h _ ih =>
    refine ⟨ih.1.sameNames ?_ (ih.1.values.edit h), ih.2⟩
    unfold Session.edit at h
    cases hg : change s.genealogy with
    | error failure => rw [hg] at h; cases h
    | ok genealogy =>
      rw [hg] at h
      cases h
      exact ⟨rfl, rfl⟩
  | @putKinshipTerm key name answers s _ ih =>
    exact ⟨ih.1.sameNames (s.putKinshipTerm_sameNames key name)
      (ih.1.values.putKinshipTerm key name), ih.2⟩

end Session
end KinQuery
