import KinQuery.Proofs.Evaluation.Naming
import KinQuery.Proofs.Scoping.Evaluation

/-! Queries in the two ways: what is read, what is evaluated and what is defined. -/
namespace KinQuery

variable {D : Env} {p q : Prop} {s r s' r' : Session} {n m : Nat}

namespace Related

theorem mapCache (h : Related (FunctionRel D) D s r) {f : Cache → Cache}
    (same : (f s.cache).enabled = s.cache.enabled) : Related (FunctionRel D) D (s.mapCache f) r :=
  ⟨h.hosts, h.world, h.lambdas, same.trans h.uncached, h.uncached', h.definitions, h.values,
    h.calls, h.proper, h.free, h.registered⟩

theorem isSome_definition? (h : Related (FunctionRel D) D s r) (name : String) :
    (r.definition? name).isSome = (s.definition? name).isSome := by
  rcases h.definition? name with ⟨none, none'⟩ | ⟨v, w, some, some', -⟩
  · rw [none, none']
  · rw [some, some']
    rfl

theorem checkUndefined (h : Related (FunctionRel D) D s r) (name : String) :
    checkUndefined r name = checkUndefined s name := by
  rw [KinQuery.checkUndefined, KinQuery.checkUndefined, h.function?, h.isSome_definition?]

/-- The same is read in both ways. -/
theorem taskAsRead (h : Related (FunctionRel D) D s r) (query : String) :
    r.taskAsRead query = s.taskAsRead query := by
  unfold Session.taskAsRead Session.taskOf Session.definitionOf
  simp only [h.checkUndefined]

theorem fresh (h : Related (FunctionRel D) D s r) {name : String}
    (undefined : s.definition? name = none) : D.lookup name = none := by
  rcases h.definition? name with ⟨-, none⟩ | ⟨v, w, some, -⟩
  · rw [← h.definitions]
    exact none
  · rw [undefined] at some
    cases some

/-- A new definition is made in both ways. -/
theorem define (h : Related (FunctionRel D) D s r) {name : String} {v w : Value}
    (proper : IsProper name) (function : s.function? name = none) (undefined : D.lookup name = none)
    (related : Value.Lift (FunctionRel D) v w) :
    Related (FunctionRel ((name, w) :: D)) ((name, w) :: D)
      { s with definitions := (name, v) :: s.definitions }
      { r with definitions := (name, w) :: r.definitions } := by
  have more : Keeps D ((name, w) :: D) := by
    intro other u found
    have apart : (other == name) = false := by
      rw [beq_eq_false_iff_ne]
      rintro rfl
      rw [undefined] at found
      cases found
    rw [List.lookup_cons, apart]
    exact found
  have weaker (v w : Value) (same : Value.Lift (FunctionRel D) v w) :=
    same.mono fun f g (h : FunctionRel D f g) => ValueRel.mono more h
  refine ⟨h.hosts, h.world, h.lambdas, h.uncached, h.uncached', ?_, ?_, ?_, ?_, ?_, h.registered⟩
  · change (name, w) :: r.definitions = _
    rw [h.definitions]
  · refine .cons ⟨rfl, weaker v w related⟩ (h.values.imp fun _ _ same => ?_)
    exact ⟨same.1, weaker _ _ same.2⟩
  · exact h.calls.imp fun _ _ same => ⟨same.1, same.2.imp weaker⟩
  · exact List.forall_mem_cons.2 ⟨proper, h.proper⟩
  · exact List.forall_mem_cons.2 ⟨function, h.free⟩

end Related

/-! ### Queries -/

theorem Session.taskAsRead_isBare {query : String} {task : Task}
    (h : s.taskAsRead query = .ok task) : task.term.IsBare := by
  obtain ⟨-, t, ht, term⟩ := taskAsRead_eq_ok h
  have bare := Term.isBare_of_readQuery ht
  rcases term with same | ⟨parts, rfl, part⟩
  · exact same ▸ bare
  · exact bare.part part

/-- A task that was evaluated in both ways is settled in both. -/
theorem Related.settle {task : Task} {v w : Value} (new : task.IsNew s)
    (h : Related (FunctionRel D) D s r) (names : s.SameNames s')
    (h' : Related (FunctionRel D) D s' r') (related : Value.Lift (FunctionRel D) v w) :
    ∃ D', Related (FunctionRel D') D' (task.settle v s') (task.settle w r') ∧
      Value.Lift (FunctionRel D') (task.answer v) (task.answer w) := by
  unfold Task.settle Task.answer
  cases hname : task.name? with
  | none => exact ⟨D, h', related⟩
  | some name =>
    have function : s'.function? name = none := by
      rw [Session.function?, names.hosts]
      exact new.function name hname
    have undefined := h.fresh (new.undefined name hname)
    have proper : IsProper name := ⟨new.reference name hname, new.keyword name hname⟩
    exact ⟨_, h'.define proper function undefined related, .void⟩

theorem Related.termRel (h : Related (FunctionRel D) D s r) {t : Term Value} (bare : t.IsBare) :
    TermRel D [] [] (t.substitute s.bindings) t := by
  have proper (name : String) (defined : (D.lookup name).isSome = true) : IsProper name := by
    obtain ⟨v, found⟩ := Option.isSome_iff_exists.1 defined
    exact h.proper _ (Bindings.mem_of_ofList found)
  have related := TermRel.of_isBare h.values proper bare []
  rw [Bindings.hide_nil] at related
  exact related

theorem Task.run_simulates {task : Task} (new : task.IsNew s) (bare : task.term.IsBare)
    (h : Related (FunctionRel D) D s r) (hp : p ∨ m ≤ n) (hq : q ∨ n < m) :
    ∃ D', Outcome (FunctionRel D') D' p q (Value.Lift (FunctionRel D'))
      ((task.substitute s.bindings).run n s) (task.runIn m r) := by
  have outcome := (eval_simulates hp hq).1 _ _ _ (h.termRel bare) s r h
  have names := eval_sameNames n (task.term.substitute s.bindings) s
  rw [Task.run, Task.runBy, Task.runIn]
  dsimp only [Task.substitute]
  generalize (eval n (task.term.substitute s.bindings)).run s = x at outcome names
  generalize (evalIn m [] task.term).run r = y at outcome
  cases outcome with
  | ok related h' =>
    obtain ⟨D', settled, answers⟩ := h.settle new names h' related
    exact ⟨D', .ok answers settled⟩
  | failed same h' => exact ⟨D, .failed same h'⟩
  | left _ allowed => exact ⟨D, .left _ allowed⟩
  | right _ allowed => exact ⟨D, .right _ allowed⟩

/-- A query ends in related ways. -/
theorem Session.exec_simulates (h : Related (FunctionRel D) D s r) (hp : p ∨ m ≤ n) (hq : q ∨ n < m)
    (query : String) :
    ∃ D', Outcome (FunctionRel D') D' p q (Value.Lift (FunctionRel D')) (s.exec n query)
      (r.execIn m query) := by
  rw [exec_eq, Session.task, execIn, h.taskAsRead]
  cases htask : s.taskAsRead query with
  | error failure => exact ⟨D, .failed rfl ((h.mapCache rfl).mapCache rfl)⟩
  | ok task =>
    have start : Related (FunctionRel D) D (s.mapCache .discard) r := h.mapCache rfl
    have read : (s.mapCache .discard).taskAsRead query = .ok task := htask
    obtain ⟨new, -⟩ := taskAsRead_eq_ok read
    obtain ⟨D', outcome⟩ := Task.run_simulates new (taskAsRead_isBare htask) start hp hq
    change ∃ D', Outcome (FunctionRel D') D' p q (Value.Lift (FunctionRel D'))
      (closed ((task.substitute (s.mapCache .discard).bindings).run n (s.mapCache .discard)))
      (task.runIn m r)
    generalize (task.substitute (s.mapCache .discard).bindings).run n (s.mapCache .discard) = x
      at outcome
    generalize task.runIn m r = y at outcome
    cases outcome with
    | ok related h' => exact ⟨D', .ok related (h'.mapCache rfl)⟩
    | failed same h' => exact ⟨D', .failed same (h'.mapCache rfl)⟩
    | left _ allowed => exact ⟨D', .left _ allowed⟩
    | right _ allowed => exact ⟨D', .right _ allowed⟩

end KinQuery
