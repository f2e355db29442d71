import KinQuery.Proofs.Session.FailedQuery
import KinQuery.Proofs.Session.Named

/-! What names stand for, throughout the life of a session.

A query adds at most one definition, of a name that was free, and a registration adds a function
under a name that was free. So the two tables never share a name, a definition is never replaced,
and although the head of an application is looked up in them in another order than an argument
is, it stands for the same function. -/
namespace KinQuery

variable {s t u : Session} {h : HostFunction} {f : Function Value} {v : Value} {name : String}

namespace Session

/-- Nothing was registered or defined. -/
structure IsFresh (s : Session) : Prop where
  hosts : s.hosts = []
  definitions : s.definitions = []

/-- What becomes of a session when queries and scripts are run and functions are registered. -/
inductive Becomes : Session → Session → Prop
  | refl (s : Session) : Becomes s s
  | exec {s t : Session} (depth : Nat) (query : String) :
      Becomes s t → Becomes s (t.exec depth query).2
  | execScript {s t : Session} (depth : Nat) (script : String) :
      Becomes s t → Becomes s (t.execScript depth script).2
  | register {s t u : Session} {h : HostFunction} :
      Becomes s t → t.register h = .ok u → Becomes s u

/-- What is defined stays defined, with the same value. -/
def Retains (s t : Session) : Prop :=
  ∀ name v, s.definition? name = some v → t.definition? name = some v

/-- Definitions have names of their own, and no function has the name of a keyword. -/
structure IsOrderly (s : Session) : Prop extends s.IsNamed where
  hosts : ∀ h ∈ s.hosts, isKeyword h.name = false

/-! ### One step -/

theorem retains_refl (s : Session) : s.Retains s :=
  fun _ _ defined => defined

theorem Retains.trans (first : s.Retains t) (second : t.Retains u) : s.Retains u :=
  fun name v defined => second name v (first name v defined)

theorem retains_of_eq (same : t.definitions = s.definitions) : s.Retains t :=
  fun name v defined => by rwa [definition?, same]

/-- A definition replaces none that there was. -/
theorem retains_cons (undefined : s.definition? name = none)
    (added : t.definitions = (name, v) :: s.definitions) : s.Retains t := by
  intro other w defined
  have apart : other ≠ name := by
    rintro rfl
    rw [undefined] at defined
    cases defined
  rw [definition?, added, List.lookup_cons, beq_false_of_ne apart]
  exact defined

/-- A query registers nothing, and it defines at most one name, which meant nothing before. -/
theorem exec_names (depth : Nat) (query : String) (s : Session) :
    (s.exec depth query).2.hosts = s.hosts ∧
      ((s.exec depth query).2.definitions = s.definitions ∨
        ∃ name v, s.definition? name = none ∧
          (s.exec depth query).2.definitions = (name, v) :: s.definitions) := by
  have evaluated (task : Task) := eval_sameNames depth task.term (s.mapCache .discard)
  have executed := s.exec_executed depth query
  generalize s.exec depth query = result at executed
  cases executed with
  | refused failure _ => exact ⟨rfl, .inl rfl⟩
  | failed task halt t _ run =>
    have names := run ▸ evaluated task
    exact ⟨names.hosts, .inl names.definitions⟩
  | answered task v t asked run =>
    have names := run ▸ evaluated task
    rcases named : task.name? with _ | name
    · simp only [Task.settle, named]
      exact ⟨names.hosts, .inl names.definitions⟩
    · simp only [Task.settle, named]
      refine ⟨names.hosts, .inr ⟨name, v, (task_isNew asked).undefined name named, ?_⟩⟩
      exact congrArg _ names.definitions

theorem exec_retains (depth : Nat) (query : String) (s : Session) :
    s.Retains (s.exec depth query).2 := by
  obtain ⟨-, same | ⟨name, v, undefined, added⟩⟩ := s.exec_names depth query
  · exact retains_of_eq same
  · exact retains_cons undefined added

theorem register_eq_ok (registered : s.register h = .ok t) :
    isKeyword h.name = false ∧ t = { s with hosts := s.hosts ++ [h] } := by
  unfold Session.register at registered
  split at registered
  · cases registered
  · rename_i free
    simp only [Bool.or_eq_true, not_or, Bool.not_eq_true] at free
    exact ⟨free.1.1, (Except.ok.inj registered).symm⟩

namespace IsOrderly

theorem exec (orderly : s.IsOrderly) (depth : Nat) (query : String) :
    (s.exec depth query).2.IsOrderly := by
  refine ⟨orderly.toIsNamed.exec depth query, ?_⟩
  rw [(s.exec_names depth query).1]
  exact orderly.hosts

theorem register (orderly : s.IsOrderly) (registered : s.register h = .ok t) : t.IsOrderly := by
  refine ⟨orderly.toIsNamed.register registered, ?_⟩
  obtain ⟨free, rfl⟩ := register_eq_ok registered
  intro host member
  rcases List.mem_append.1 member with old | new
  · exact orderly.hosts host old
  · exact List.mem_singleton.1 new ▸ free

end IsOrderly

/-! ### Any number of steps -/

theorem execAll_orderly (depth : Nat) (queries : List String) (orderly : s.IsOrderly) :
    (s.execAll depth queries).2.IsOrderly ∧ s.Retains (s.execAll depth queries).2 := by
  induction queries generalizing s with
  | nil => exact ⟨orderly, s.retains_refl⟩
  | cons query queries ih =>
    have first := orderly.exec depth query
    have retained := s.exec_retains depth query
    rw [execAll]
    rcases hrun : s.exec depth query with ⟨halt | v, t⟩
    · rw [hrun] at first retained
      exact ⟨first, retained⟩
    · rw [hrun] at first retained
      exact ⟨(ih first).1, retained.trans (ih first).2⟩

theorem execScript_orderly (depth : Nat) (script : String) (orderly : s.IsOrderly) :
    (s.execScript depth script).2.IsOrderly ∧ s.Retains (s.execScript depth script).2 := by
  rw [execScript]
  cases Text.splitTerms script with
  | error fault => exact ⟨orderly, s.retains_refl⟩
  | ok terms =>
    have run := execAll_orderly depth terms orderly
    dsimp only
    rcases hrun : s.execAll depth terms with ⟨halt | done, t⟩ <;>
    · rw [hrun] at run
      exact run

theorem Becomes.orderly (becomes : s.Becomes t) (orderly : s.IsOrderly) :
    t.IsOrderly ∧ s.Retains t := by
  induction becomes with
  | refl => exact ⟨orderly, s.retains_refl⟩
  | exec depth query _ ih =>
    obtain ⟨before, retained⟩ := ih
    exact ⟨before.exec depth query, retained.trans (exec_retains depth query _)⟩
  | execScript depth script _ ih =>
    obtain ⟨before, retained⟩ := ih
    obtain ⟨after, kept⟩ := execScript_orderly depth script before
    exact ⟨after, retained.trans kept⟩
  | register _ registered ih =>
    obtain ⟨before, retained⟩ := ih
    obtain ⟨-, added⟩ := register_eq_ok registered
    exact ⟨before.register registered, retained.trans (retains_of_eq (by rw [added]))⟩

theorem IsFresh.isOrderly (new : s.IsFresh) : s.IsOrderly where
  proper := by simp [new.definitions]
  apart := by simp [new.definitions]
  hosts := by simp [new.hosts]

/-! ### What names stand for -/

/-- Where functions are applied and where values are asked for, a term stands for one function. -/
structure StandsFor (s : Session) (t : Term Value) (f : Function Value) : Prop where
  head (depth : Nat) : (resolve (eval (depth + 1)) t).run s = (.ok f, s)
  argument (depth : Nat) : (eval (depth + 1) t).run s = (.ok (.function f), s)

theorem standsFor_value (s : Session) (f : Function Value) : s.StandsFor (.value (.function f)) f :=
  ⟨fun _ => rfl, fun _ => rfl⟩

theorem standsFor_function (unrecognized : Kind.recognize name = none)
    (undefined : s.definition? name = none) (function : s.function? name = some f) :
    s.StandsFor (.atom name) f := by
  refine ⟨fun depth => ?_, fun depth => ?_⟩
  · rw [resolve, Run.run_bind_ok (Run.run_get s), undefined, function]
    rfl
  · rw [eval_atom, evalAtom, Workings.evalAtom, unrecognized]
    dsimp only
    rw [Run.run_bind_ok (Run.run_get s), function]
    rfl

theorem standsFor_definition (unrecognized : Kind.recognize name = none)
    (free : s.function? name = none) (defined : s.definition? name = some (.function f)) :
    s.StandsFor (.atom name) f := by
  refine ⟨fun depth => ?_, fun depth => ?_⟩
  · rw [resolve, Run.run_bind_ok (Run.run_get s), defined]
    rfl
  · rw [eval_atom, evalAtom, Workings.evalAtom, unrecognized]
    dsimp only
    rw [Run.run_bind_ok (Run.run_get s), free, defined]
    rfl

/-- A name that leads applications to a function, and as an argument stands for the function too,
whether the definitions are put in place first or not. -/
structure Names (s : Session) (name : String) (f : Function Value) : Prop where
  applies (arguments : List (Term Value)) :
    (Term.compound (.atom name :: arguments)).specialForm? = none
  written : s.StandsFor (.atom name) f
  inPlace : s.StandsFor ((Term.atom name).substitute s.bindings) f

theorem isKeyword_of_specialForm {form : SpecialForm} (h : SpecialForm.ofWord? name = some form) :
    isKeyword name = true := by
  have word : form.word = name := by simpa using List.find?_some h
  cases form <;> simp [← word, isKeyword, keywords, SpecialForm.all, SpecialForm.word]

theorem specialForm?_eq_none (free : isKeyword name = false) (arguments : List (Term Value)) :
    (Term.compound (.atom name :: arguments)).specialForm? = none := by
  cases led : SpecialForm.ofWord? name with
  | none => exact led
  | some form => simp [isKeyword_of_specialForm led] at free

theorem isKeyword_primitive (p : Primitive) : isKeyword p.name = false := by
  cases p <;> decide +kernel

theorem IsOrderly.isKeyword (orderly : s.IsOrderly) (h : s.function? name = some f) :
    isKeyword name = false := by
  unfold function? at h
  split at h
  · rename_i p known
    have spelled : p.name = name := by simpa using List.find?_some known
    exact spelled ▸ isKeyword_primitive p
  · obtain ⟨host, found, -⟩ := Option.map_eq_some_iff.1 h
    have spelled : host.name = name := by simpa using List.find?_some found
    exact spelled ▸ orderly.hosts host (List.mem_of_find?_eq_some found)

theorem IsNamed.of_definition? (named : s.IsNamed) (defined : s.definition? name = some v) :
    IsProper name ∧ s.function? name = none ∧ Kind.recognize name = none := by
  have member := definition?_mem defined
  obtain ⟨reference, free⟩ := named.proper _ member
  exact ⟨⟨reference, free⟩, named.apart _ member, Kind.recognize_reference reference free⟩

theorem IsNamed.names_primitive (named : s.IsNamed) (p : Primitive) :
    s.Names p.name (.primitive p) := by
  have undefined := named.undefined_primitive p
  have function : s.function? p.name = some (.primitive p) := by rw [function?, p.ofName?_name]
  have written := standsFor_function (Kind.recognize_primitive p) undefined function
  refine ⟨specialForm?_eq_none (isKeyword_primitive p), written, ?_⟩
  rwa [Term.substitute, bindings, undefined]

theorem IsNamed.names_definition (named : s.IsNamed)
    (defined : s.definition? name = some (.function f)) : s.Names name f := by
  obtain ⟨proper, free, unrecognized⟩ := named.of_definition? defined
  refine ⟨specialForm?_eq_none proper.2, standsFor_definition unrecognized free defined, ?_⟩
  rw [Term.substitute, bindings, defined]
  exact s.standsFor_value f

/-- However a new session is used, what it defines bears a reference that is no keyword, no
function and no literal, and keeps its value; no function bears a keyword; and each primitive
function and each function that is defined is what its name stands for, at the head of an
application and as an argument. -/
theorem names_unambiguous (new : s.IsFresh) (first : s.Becomes t) (rest : t.Becomes u) :
    (∀ name v, t.definition? name = some v → (isReference name = true ∧ isKeyword name = false) ∧
        t.function? name = none ∧ Kind.recognize name = none) ∧
      (∀ name f, t.function? name = some f → isKeyword name = false) ∧
      (∀ name v, t.definition? name = some v → u.definition? name = some v) ∧
      (∀ p : Primitive, Kind.recognize p.name = none) ∧
      (∀ p : Primitive, t.Names p.name (.primitive p)) ∧
      ∀ name f, t.definition? name = some (.function f) → t.Names name f := by
  obtain ⟨orderly, -⟩ := first.orderly new.isOrderly
  obtain ⟨-, retained⟩ := rest.orderly orderly
  exact ⟨fun _ _ => orderly.of_definition?, fun _ _ => orderly.isKeyword, retained,
    Kind.recognize_primitive, orderly.names_primitive, fun _ _ => orderly.names_definition⟩

/-- A function defined in a new session, before another is registered. -/
theorem names_unambiguous_define :
    let one := (fresh.exec 2 "(define plus +)").2
    let host : HostFunction := ⟨"echo", .exactly 1, .first⟩
    fresh.IsFresh ∧ fresh.Becomes one ∧ (∃ u, one.register host = .ok u ∧ one.Becomes u ∧
      u.definition? "plus" = some (.function (.primitive .add))) ∧
      one.Names "plus" (.primitive .add) := by
  intro one host
  have read : readQuery "(define plus +)" =
      .ok (.compound [.atom "define", .atom "plus", .atom "+"]) := by cbv
  have defined : one.definitions = [("plus", .function (.primitive .add))] := by
    change (fresh.exec 2 "(define plus +)").2.definitions = _
    rw [exec_of_read read]
    rfl
  have known : one.definition? "plus" = some (.function (.primitive .add)) := by
    rw [definition?, defined]
    rfl
  have new : fresh.IsFresh := ⟨rfl, rfl⟩
  have becomes : fresh.Becomes one := .exec 2 _ (.refl fresh)
  have registered : one.register host = .ok { one with hosts := one.hosts ++ [host] } := by
    have hosts : one.hosts = [] := (fresh.exec_names 2 _).1
    have other : Primitive.ofName? host.name = none := by decide
    have free : one.function? host.name = none := by
      rw [function?, other, hosts]
      rfl
    have undefined : one.definition? host.name = none := by
      rw [definition?, defined]
      rfl
    have keyword : KinQuery.isKeyword host.name = false := by decide
    rw [Session.register, keyword, free, undefined]
    rfl
  have more : one.Becomes { one with hosts := one.hosts ++ [host] } := .register (.refl one) registered
  have facts := names_unambiguous new becomes more
  exact ⟨new, becomes, ⟨_, registered, more, facts.2.2.1 _ _ known⟩, facts.2.2.2.2.2 _ _ known⟩

end Session
end KinQuery
