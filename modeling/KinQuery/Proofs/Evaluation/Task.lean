import KinQuery.Proofs.Evaluation.Triple
import KinQuery.Proofs.Term.Reading
import Mathlib.Data.List.Permutation

/-! What a query asks for: a term to evaluate, and perhaps a name to define. This much is
settled before anything is evaluated. -/
namespace KinQuery

/-- A term to evaluate, and the name that its value is to be given. -/
structure Task where
  name? : Option String
  term : Term Value

/-- The definition that a define term asks for, with no name put in place. -/
def Session.definitionOf (s : Session) (parts : List (Term Value)) : Except Failure Task := do
  let name ← definedName parts
  match parts with
  | [_, _, designatum] => do
    checkUndefined s name
    .ok ⟨some name, designatum⟩
  | _ => .error (.malformedDefine (Term.compound parts).display)

def Session.taskOf (s : Session) (t : Term Value) : Except Failure Task :=
  match t.specialForm?, t with
  | some .define, .compound parts => s.definitionOf parts
  | _, t => .ok ⟨none, t⟩

/-- The task that a query asks for, as it was read. -/
def Session.taskAsRead (s : Session) (query : String) : Except Failure Task := do
  s.taskOf (← readQuery query)

namespace Task

/-- The task with some names put in place. -/
def substitute (bindings : Bindings Value) (task : Task) : Task :=
  { task with term := task.term.substitute bindings }

/-- The answer to a query whose term has a value. -/
def answer (task : Task) (v : Value) : Value :=
  match task.name? with
  | some _ => .void
  | none => v

/-- The session after a query whose term has a value. -/
def settle (task : Task) (v : Value) (s : Session) : Session :=
  match task.name? with
  | some name => { s with definitions := (name, v) :: s.definitions }
  | none => s

@[simp] theorem settle_cache (task : Task) (v : Value) (s : Session) :
    (task.settle v s).cache = s.cache := by
  unfold settle
  split <;> rfl

/-- Evaluates the term of a task and settles it. -/
def runBy (eval : Term Value → Run Value) (task : Task) (s : Session) :
    Except Halt Value × Session :=
  match (eval task.term).run s with
  | (.ok v, t) => (.ok (task.answer v), task.settle v t)
  | (.error halt, t) => (.error halt, t)

def run (task : Task) (depth : Nat) (s : Session) : Except Halt Value × Session :=
  task.runBy (eval depth) s

end Task

namespace Session

/-- The task that a query asks for, with the definitions put in place. -/
def task (s : Session) (query : String) : Except Failure Task :=
  (s.taskAsRead query).map (Task.substitute s.bindings)

/-- Runs a task if there is one. -/
def performBy (eval : Term Value → Run Value) (s : Session) :
    Except Failure Task → Except Halt Value × Session
  | .ok task => task.runBy eval s
  | .error failure => (.error (.failed failure), s)

def perform (s : Session) (depth : Nat) (task : Except Failure Task) :
    Except Halt Value × Session :=
  s.performBy (eval depth) task

/-- Keeps the results of a query that succeeded, and drops those of one that failed. -/
def closed : Except Halt Value × Session → Except Halt Value × Session
  | (.ok v, s) => (.ok v, s.mapCache .commit)
  | (.error halt, s) => (.error halt, s.mapCache .discard)

end Session

variable {depth : Nat} {query : String} {s : Session} {t : Term Value} {task : Task}

/-! ### Queries as tasks -/

section
variable {eval : Term Value → Run Value}

theorem run_define (parts : List (Term Value)) (s : Session) :
    (define eval parts).run s =
      s.performBy eval ((s.definitionOf parts).map (Task.substitute s.bindings)) := by
  unfold define Session.definitionOf
  cases definedName parts with
  | error failure => rfl
  | ok name =>
    rw [Run.ofExcept_ok, pure_bind]
    rcases parts with _ | ⟨_, _ | ⟨_, _ | ⟨designatum, _ | _⟩⟩⟩
    · rfl
    · rfl
    · rfl
    · change (do
        let s ← get
        Run.ofExcept (checkUndefined s name)
        let v ← eval (designatum.substitute s.bindings)
        modify fun s => { s with definitions := (name, v) :: s.definitions }
        return .void : Run Value).run s =
          s.performBy eval (Except.map (Task.substitute s.bindings) (do
            checkUndefined s name
            .ok ⟨some name, designatum⟩))
      rw [Run.run_bind_ok (Run.run_get s)]
      cases checkUndefined s name with
      | error failure => rfl
      | ok _ =>
        rw [Run.ofExcept_ok, pure_bind, Run.run_bind]
        change _ = Task.runBy eval ⟨some name, designatum.substitute s.bindings⟩ s
        unfold Task.runBy
        rcases (eval (designatum.substitute s.bindings)).run s with ⟨_ | v, t⟩
        · rfl
        · rfl
    · rfl

theorem run_evaluation (eval : Term Value → Run Value) (t : Term Value) (s : Session) :
    (do let s ← get; eval (t.substitute s.bindings) : Run Value).run s =
      s.performBy eval (.ok ⟨none, t.substitute s.bindings⟩) := by
  rw [Run.run_bind_ok (Run.run_get s)]
  change _ = Task.runBy eval ⟨none, t.substitute s.bindings⟩ s
  unfold Task.runBy
  rcases (eval (t.substitute s.bindings)).run s with ⟨_ | v, u⟩
  · rfl
  · rfl

theorem run_runTerm (t : Term Value) (s : Session) :
    (runTerm eval t).run s = s.performBy eval ((s.taskOf t).map (Task.substitute s.bindings)) := by
  have evaluation := run_evaluation eval t s
  unfold runTerm Session.taskOf
  cases t with
  | atom text => exact evaluation
  | value v => exact evaluation
  | compound parts =>
    cases (Term.compound parts).specialForm? with
    | none => exact evaluation
    | some form =>
      cases form with
      | define => exact run_define parts s
      | lambda => exact evaluation
      | conditional => exact evaluation

/-- A query is read, turned into a task, and performed. -/
theorem run_runQuery (query : String) (s : Session) :
    (runQuery eval query).run s = s.performBy eval (s.task query) := by
  unfold runQuery Session.task Session.taskAsRead
  cases readQuery query with
  | error failure => rfl
  | ok t => exact run_runTerm t s

/-- The queries of a session, taken apart: what fails before anything is evaluated changes
nothing but the results kept so far, and what is evaluated is settled afterwards. -/
theorem Session.execBy_eq (eval : Term Value → Run Value) (query : String) (s : Session) :
    s.execBy eval query = closed ((s.mapCache .discard).performBy eval (s.task query)) := by
  unfold execBy
  rw [run_runQuery]
  rfl

end

theorem Session.exec_eq (depth : Nat) (query : String) (s : Session) :
    s.exec depth query = closed ((s.mapCache .discard).perform depth (s.task query)) :=
  execBy_eq (eval depth) query s

/-- What a query can come to: nothing is evaluated, or its term fails, or its term has a value and
the task is settled. -/
inductive Session.Executed (depth : Nat) (query : String) (s : Session) :
    Except Halt Value × Session → Prop
  | refused (failure : Failure) : s.task query = .error failure →
      Executed depth query s (.error (.failed failure), (s.mapCache .discard).mapCache .discard)
  | failed (task : Task) (halt : Halt) (t : Session) : s.task query = .ok task →
      (eval depth task.term).run (s.mapCache .discard) = (.error halt, t) →
        Executed depth query s (.error halt, t.mapCache .discard)
  | answered (task : Task) (v : Value) (t : Session) : s.task query = .ok task →
      (eval depth task.term).run (s.mapCache .discard) = (.ok v, t) →
        Executed depth query s (.ok (task.answer v), (task.settle v t).mapCache .commit)

theorem Session.exec_executed (depth : Nat) (query : String) (s : Session) :
    s.Executed depth query (s.exec depth query) := by
  rw [exec_eq]
  cases asked : s.task query with
  | error failure => exact .refused failure asked
  | ok task =>
    rw [perform, performBy, Task.runBy]
    rcases run : (eval depth task.term).run (s.mapCache .discard) with ⟨halt | v, t⟩
    · exact .failed task halt t asked run
    · exact .answered task v t asked run

theorem Session.exec_of_read (h : readQuery query = .ok t) :
    s.exec depth query = closed ((s.mapCache .discard).perform depth
      ((s.taskOf t).map (Task.substitute s.bindings))) := by
  rw [exec_eq, Session.task, taskAsRead, h]
  rfl

/-- A query that asks for a value is answered with what its term evaluates to, with the
definitions put in place. -/
theorem Session.exec_of_eval {t' : Term Value} {u : Session} {v : Value}
    (read : readQuery query = .ok t) (special : t.specialForm? = none)
    (inPlace : t.substitute s.bindings = t')
    (run : (eval depth t').run (s.mapCache .discard) = (.ok v, u)) :
    (s.exec depth query).1 = .ok v := by
  have task : s.taskOf t = .ok ⟨none, t⟩ := by
    unfold taskOf
    rw [special]
  rw [exec_of_read read, task]
  change (closed (Task.run ⟨none, t.substitute s.bindings⟩ depth (s.mapCache .discard))).1 = _
  rw [inPlace, Task.run, Task.runBy, run]
  rfl

/-! ### What a task may be -/

theorem checkUndefined_eq_ok {name : String} (h : checkUndefined s name = .ok ()) :
    isKeyword name = false ∧ s.function? name = none ∧ s.definition? name = none := by
  unfold checkUndefined at h
  split at h
  · cases h
  · split at h
    · cases h
    · split at h
      · cases h
      · rename_i keyword function definition
        simpa using And.intro keyword (And.intro function definition)

theorem definedName_eq_ok {parts : List (Term Value)} {name : String}
    (h : definedName parts = .ok name) : isReference name = true := by
  unfold definedName at h
  split at h
  · split at h
    · rename_i reference
      cases h
      exact reference
    · cases h
  · cases h
  · cases h

/-- A name that a task defines may be defined, and nothing bears it yet. -/
structure Task.IsNew (s : Session) (task : Task) : Prop where
  reference : ∀ name, task.name? = some name → isReference name = true
  keyword : ∀ name, task.name? = some name → isKeyword name = false
  function : ∀ name, task.name? = some name → s.function? name = none
  undefined : ∀ name, task.name? = some name → s.definition? name = none

theorem Session.definitionOf_eq_ok {parts : List (Term Value)} (h : s.definitionOf parts = .ok task) :
    task.IsNew s ∧ task.term ∈ parts := by
  unfold definitionOf at h
  cases hname : definedName parts with
  | error failure =>
    rw [hname] at h
    cases h
  | ok name =>
    rw [hname] at h
    rcases parts with _ | ⟨_, _ | ⟨_, _ | ⟨designatum, _ | _⟩⟩⟩
    · cases h
    · cases h
    · cases h
    · cases hcheck : checkUndefined s name with
      | error failure =>
        change (do
          checkUndefined s name
          .ok ⟨some name, designatum⟩ : Except Failure Task) = _ at h
        rw [hcheck] at h
        cases h
      | ok _ =>
        change (do
          checkUndefined s name
          .ok ⟨some name, designatum⟩ : Except Failure Task) = _ at h
        rw [hcheck] at h
        obtain rfl := Except.ok.inj h
        obtain ⟨keyword, function, definition⟩ := checkUndefined_eq_ok hcheck
        refine ⟨⟨?_, ?_, ?_, ?_⟩, by simp⟩
        · rintro _ ⟨⟩
          exact definedName_eq_ok hname
        · rintro _ ⟨⟩
          exact keyword
        · rintro _ ⟨⟩
          exact function
        · rintro _ ⟨⟩
          exact definition
    · cases h

/-- A task is to evaluate what was read, or a part of it. -/
theorem Session.taskOf_eq_ok (h : s.taskOf t = .ok task) :
    task.IsNew s ∧ (task.term = t ∨ ∃ parts, t = .compound parts ∧ task.term ∈ parts) := by
  unfold taskOf at h
  split at h
  · obtain ⟨new, part⟩ := definitionOf_eq_ok h
    exact ⟨new, .inr ⟨_, rfl, part⟩⟩
  · obtain rfl := Except.ok.inj h
    exact ⟨⟨by simp, by simp, by simp, by simp⟩, .inl rfl⟩

theorem Session.taskAsRead_eq_ok (h : s.taskAsRead query = .ok task) :
    task.IsNew s ∧ ∃ t, readQuery query = .ok t ∧
      (task.term = t ∨ ∃ parts, t = .compound parts ∧ task.term ∈ parts) := by
  unfold taskAsRead at h
  cases hread : readQuery query with
  | error failure =>
    rw [hread] at h
    cases h
  | ok t =>
    rw [hread] at h
    obtain ⟨new, term⟩ := taskOf_eq_ok h
    exact ⟨new, t, rfl, term⟩

theorem Session.task_eq_ok (h : s.task query = .ok task) :
    ∃ read, s.taskAsRead query = .ok read ∧ task = read.substitute s.bindings := by
  unfold Session.task at h
  cases hread : s.taskAsRead query with
  | error failure =>
    rw [hread] at h
    cases h
  | ok read =>
    rw [hread] at h
    exact ⟨read, rfl, (Except.ok.inj h).symm⟩

theorem Session.task_isNew (h : s.task query = .ok task) : task.IsNew s := by
  obtain ⟨read, hread, rfl⟩ := task_eq_ok h
  obtain ⟨new, -⟩ := taskAsRead_eq_ok hread
  exact ⟨new.reference, new.keyword, new.function, new.undefined⟩

/-! ### The words of a task -/

variable {g : Vocabulary}

theorem Session.definition?_mem {name : String} {v : Value} (h : s.definition? name = some v) :
    (name, v) ∈ s.definitions :=
  Bindings.mem_of_ofList h

theorem Session.task_obeys (atoms : ∀ t, readQuery query = .ok t → t.Obeys g)
    (definitions : ∀ entry ∈ s.definitions, entry.2.Obeys g) (h : s.task query = .ok task) :
    task.term.Obeys g := by
  obtain ⟨read, hread, rfl⟩ := task_eq_ok h
  obtain ⟨-, t, ht, term⟩ := taskAsRead_eq_ok hread
  have obeys : read.term.Obeys g := by
    rcases term with same | ⟨parts, rfl, part⟩
    · exact same ▸ atoms t ht
    · exact Term.obeys_compound.1 (atoms _ ht) _ part
  exact obeys.substitute fun name v hv => definitions _ (definition?_mem hv)

/-- A task is nested no deeper than its query. -/
theorem Session.task_height_le (h : s.task query = .ok task) :
    ∃ t, readQuery query = .ok t ∧ task.term.height ≤ t.height := by
  obtain ⟨read, hread, rfl⟩ := task_eq_ok h
  obtain ⟨-, t, ht, term⟩ := taskAsRead_eq_ok hread
  refine ⟨t, ht, Nat.le_trans (read.term.height_substitute_le s.bindings) ?_⟩
  rcases term with same | ⟨parts, rfl, part⟩
  · exact Nat.le_of_eq (congrArg Term.height same)
  · exact Nat.le_of_lt (Term.height_lt part)

end KinQuery
