import KinQuery.Proofs.Caching.Trace
import KinQuery.Proofs.Evaluation.Atom

/-! What a computation does to the cache is what the events of its trace do, one after the other.

It is shown of each step of evaluation and of the programs of registered functions, and so of the
evaluation of terms at every depth and of whole queries. -/
namespace KinQuery

variable {α β : Type} {P : Hosting}

/-- The computation does to the cache what the events of the trace do, and the results among them
are results of applications. If registered functions run no queries, the trace has none. -/
structure Hosting.Tells (P : Hosting) (T : Trace) (m : Run α) : Prop where
  cache : ∀ s, (m.run s).2.cache = s.cache.replay (T s)
  isResult : ∀ s, ∀ result ∈ CacheEvent.results (T s), P.IsResult result
  noQuery : P.RunsNoQuery → ∀ s, (T s).any CacheEvent.isQuery = false

namespace Hosting.Tells
open CacheEvent Trace

variable {T : Trace} {U : α → Trace} {m : Run α} {f : α → Run β}

theorem silent (unchanged : ∀ s, (m.run s).2.cache = s.cache) : P.Tells Trace.silent m where
  cache := unchanged
  isResult _ _ h := by cases h
  noQuery _ _ := rfl

theorem checked (r : Except Failure α) : P.Tells Trace.silent (Run.ofExcept r) :=
  silent fun s => by rw [Run.run_ofExcept]

theorem bind (first : P.Tells T m) (next : ∀ a, P.Tells (U a) (f a)) :
    P.Tells (T.andThen m U) (m >>= f) := by
  constructor
  · intro s
    have told := first.cache s
    rcases hm : m.run s with ⟨halt | a, t⟩ <;> rw [hm] at told
    · rw [Run.run_bind_error hm]
      simpa only [andThen, hm, List.append_nil] using told
    · rw [Run.run_bind_ok hm]
      simp only [andThen, hm]
      rw [(next a).cache t, told, Cache.replay_append]
  · intro s result h
    rcases hm : m.run s with ⟨halt | a, t⟩ <;>
      simp only [andThen, hm, results_append, List.mem_append] at h
    · exact first.isResult s result (h.resolve_right (by simp [results]))
    · exact h.elim (first.isResult s result) ((next a).isResult t result)
  · intro none s
    have before := first.noQuery none s
    rcases hm : m.run s with ⟨halt | a, t⟩ <;>
      simp only [andThen, hm, List.any_append, Bool.or_eq_false_iff]
    · exact ⟨before, rfl⟩
    · exact ⟨before, (next a).noQuery none t⟩

theorem andThen_silent (T : Trace) (m : Run α) : T.andThen m (fun _ => Trace.silent) = T := by
  funext s
  unfold andThen
  split <;> exact List.append_nil _

/-- What is done with a value at the end need not be told if it is silent. -/
theorem before (first : P.Tells T m) (next : ∀ a, P.Tells Trace.silent (f a)) :
    P.Tells T (m >>= f) := by
  have whole := first.bind next
  rwa [andThen_silent] at whole

theorem pure (a : α) : P.Tells Trace.silent (Pure.pure a) :=
  silent fun _ => rfl

theorem fail (failure : Failure) : P.Tells Trace.silent (Run.fail failure : Run α) :=
  silent fun _ => rfl

theorem run_attempt_session (m : Run α) (s : Session) :
    ((Run.attempt m).run s).2 = (m.run s).2 := by
  unfold Run.attempt
  rw [ExceptT.run_mk]
  rcases m.run s with ⟨(failure | _) | a, t⟩ <;> rfl

theorem attempt (told : P.Tells T m) : P.Tells T (Run.attempt m) where
  cache s := by
    rw [run_attempt_session]
    exact told.cache s
  isResult := told.isResult
  noQuery := told.noQuery

/-- What is seen of the session does not matter to the cache. -/
theorem look {T : Session → Trace} {f : Session → Run β} (told : ∀ s, P.Tells (T s) (f s)) :
    P.Tells (fun s => T s s) (get >>= f) where
  cache s := (told s).cache s
  isResult s := (told s).isResult s
  noQuery none s := (told s).noQuery none s

/-- A step that comes to an event in some sessions, and leaves the cache alone in the others. -/
theorem deciding {event : CacheEvent} {occurs : Session → Prop} [DecidablePred occurs]
    (disturbance : event.isDisturbance = true)
    (changed : ∀ s, (m.run s).2.cache = if occurs s then act s.cache event else s.cache) :
    P.Tells (fun s => if occurs s then [event] else []) m := by
  have noResult : event.result? = none := by cases event <;> first | rfl | cases disturbance
  have noQuery : event.isQuery = false := by cases event <;> first | rfl | cases disturbance
  refine ⟨fun s => ?_, fun s result h => ?_, fun _ s => ?_⟩
  · rw [changed]
    split <;> rfl
  · split at h
    · simp [results, noResult] at h
    · cases h
  · split
    · simp [noQuery]
    · rfl

theorem mapM {f : α → Run β} {trace : α → Trace} (told : ∀ a, P.Tells (trace a) (f a)) :
    ∀ as : List α, P.Tells (each f trace as) (as.mapM f)
  | [] => by
    rw [List.mapM_nil]
    exact pure _
  | a :: as => by
    rw [List.mapM_cons]
    refine (told a).bind fun b => ?_
    exact (mapM told as).before fun _ => pure _

end Hosting.Tells

/-! ### The steps of evaluation -/

section Steps
open Hosting.Tells

variable {eval : Term Value → Run Value} {apply : Function Value → List Value → Run Value}
  {evalTrace : Term Value → Trace} {applyTrace : Function Value → List Value → Trace}

theorem Session.SameButTree.cache {s t : Session} (h : s.SameButTree t) : t.cache = s.cache := by
  rcases h with rfl | rfl <;> rfl

theorem evalAtom_cache (name : String) (s : Session) :
    ((evalAtom name).run s).2.cache = s.cache := by
  obtain ⟨t, same, run⟩ := run_evalAtom name s
  rw [run]
  exact same.cache

theorem run_change_put (key name : String) (s : Session) :
    ((Run.change (·.putKinshipTerm key name)).run s).2 = (s.putKinshipTerm key name).2 := by
  rw [Run.change, Run.run_bind_ok (Run.run_modifyGet _ s), Run.run_ofExcept]

theorem change_put_told (key name : String) :
    P.Tells (putTrace key name) (Run.change (·.putKinshipTerm key name)) := by
  refine deciding rfl fun s => ?_
  rw [run_change_put, Session.putKinshipTerm_eq]
  rfl

theorem callPut_told : ∀ arguments : List Value,
    P.Tells (callPutTrace arguments) (Primitive.callPut arguments)
  | [_, _] => by
    refine (checked _).bind fun key => ?_
    refine (checked _).bind fun name => ?_
    exact (change_put_told key name).before fun _ => pure _
  | [] | [_] | _ :: _ :: _ :: _ => checked (Primitive.putKinshipTerm.refuse _)

section Calls
variable (applied : ∀ f arguments, P.Tells (applyTrace f arguments) (apply f arguments))
include applied

theorem filterItems_told (f : Function Value) :
    ∀ items : List Value, P.Tells (filterTrace apply applyTrace f items) (filterItems apply f items)
  | [] => pure _
  | item :: items => by
    refine (applied f [item]).bind fun verdict => ?_
    refine (checked _).bind fun _ => ?_
    exact (filterItems_told f items).before fun _ => pure _

theorem callFilter_told : ∀ arguments : List Value,
    P.Tells (callFilterTrace apply applyTrace arguments) (Primitive.callFilter apply arguments)
  | [_, _] => by
    refine (checked _).bind fun f => ?_
    refine (checked _).bind fun items => ?_
    exact (filterItems_told applied f items).before fun _ => pure _
  | [] | [_] | _ :: _ :: _ :: _ => checked (Primitive.filter.refuse _)

theorem callMap_told : ∀ arguments : List Value,
    P.Tells (callMapTrace apply applyTrace arguments) (Primitive.callMap apply arguments)
  | [_, _] => by
    refine (checked _).bind fun f => ?_
    refine (checked _).bind fun items => ?_
    exact (mapM (fun item => applied f [item]) items).before fun _ => pure _
  | [_, _, _] => by
    refine (checked _).bind fun f => ?_
    refine (checked _).bind fun first => ?_
    refine (checked _).bind fun second => ?_
    have each (pair : Value × Value) := applied f [pair.1, pair.2]
    exact (mapM each (first.zip second)).before fun _ => pure _
  | [] | [_] | _ :: _ :: _ :: _ :: _ => checked (Primitive.map.refuse _)

theorem call_told (p : Primitive) (arguments : List Value) :
    P.Tells (callTrace apply applyTrace p arguments) (p.call apply arguments) := by
  unfold callTrace
  split
  · exact callFilter_told applied arguments
  · exact callMap_told applied arguments
  · exact callPut_told arguments
  · rename_i hf hm hput
    refine silent fun s => ?_
    obtain ⟨t, same, run⟩ := Primitive.run_call ⟨hf, hm, hput⟩ apply arguments s
    rw [run]
    exact same.cache

end Calls

section Programs

theorem run_update_session (f : Session → Except Failure Session) (s : Session) :
    ((Run.update f).run s).2 = (f s).toOption.getD s := by
  rw [Run.update, Run.run_bind_ok (Run.run_get s), Run.run_bind, Run.run_ofExcept]
  cases f s <;> rfl

theorem register_cache {s t : Session} {h : HostFunction} (registered : s.register h = .ok t) :
    t.cache = s.cache := by
  unfold Session.register at registered
  split at registered
  · cases registered
  · cases registered
    rfl

variable (evaluated : ∀ t, P.Tells (evalTrace t) (eval t))
include evaluated

theorem taskTrace_isResult (query : String) (s : Session) :
    ∀ result ∈ CacheEvent.results (taskTrace evalTrace query s), P.IsResult result := by
  unfold taskTrace
  split
  · exact (evaluated _).isResult _
  · exact fun _ h => by cases h

theorem taskTrace_noQuery (none : P.RunsNoQuery) (query : String) (s : Session) :
    (taskTrace evalTrace query s).any CacheEvent.isQuery = false := by
  unfold taskTrace
  split
  · exact (evaluated _).noQuery none _
  · rfl

/-- Whatever registered functions do, the events of a query tell what it does to the cache. -/
theorem execBy_cache (query : String) (s : Session) :
    (s.execBy eval query).2.cache = s.cache.replay (queryTrace eval evalTrace query s) := by
  have performed : ((s.mapCache .discard).performBy eval (s.task query)).2.cache =
      s.cache.discard.replay (taskTrace evalTrace query s) := by
    unfold taskTrace
    cases s.task query with
    | error failure => rfl
    | ok task =>
      have told := (evaluated task.term).cache (s.mapCache .discard)
      rw [Session.performBy, Task.runBy]
      rcases hrun : (eval task.term).run (s.mapCache .discard) with ⟨halt | v, t⟩ <;>
        rw [hrun] at told
      · exact told
      · exact (task.settle_cache v t).trans told
  change _ = Cache.replay s.cache.discard (_ ++ _)
  rw [Session.execBy_eq, Cache.replay_append, ← performed]
  rcases (s.mapCache .discard).performBy eval (s.task query) with ⟨halt | v, t⟩ <;> rfl

variable (applied : ∀ f arguments, P.Tells (applyTrace f arguments) (apply f arguments))
include applied

theorem request_told (request : Request) (allowed : P.RunsNoQuery → request.isQuery = false) :
    P.Tells (requestTrace eval evalTrace applyTrace request) (request.run eval apply) := by
  cases request with
  | eval t => exact evaluated t
  | apply f arguments => exact applied f arguments
  | exec query =>
    refine ⟨execBy_cache evaluated query, fun s result h => ?_, fun none => ?_⟩
    · refine taskTrace_isResult evaluated query s result ?_
      simpa [requestTrace, queryTrace, CacheEvent.results, CacheEvent.result?] using h
    · cases allowed none
  | register h =>
    refine (silent fun s => ?_ : P.Tells Trace.silent (Run.update _)).before fun _ => pure _
    rw [run_update_session]
    cases registered : s.register h with
    | error failure => rfl
    | ok t => exact register_cache registered
  | tree => exact silent fun _ => rfl
  | edit change =>
    refine (deciding rfl fun s => ?_ : P.Tells _ (Run.update _)).before fun _ => pure _
    rw [run_update_session, Session.edit]
    cases change s.genealogy <;> rfl
  | putKinshipTerm key name => exact (change_put_told key name).before fun _ => pure _
  | setCaching enabled =>
    refine (deciding rfl fun s => ?_ : P.Tells _ (modify _)).before fun _ => pure _
    change { s.cache with enabled } = if s.cache.enabled ≠ enabled then _ else s.cache
    split
    · rename_i switched
      obtain rfl := Bool.eq_not.2 switched.symm
      rfl
    · rename_i still
      obtain rfl := not_not.1 still
      rfl
  | expunge =>
    refine ⟨fun _ => rfl, fun s result h => ?_, fun _ _ => rfl⟩
    cases h

theorem program_told (program : HostProgram) (allowed : P.RunsNoQuery → program.RunsNoQuery) :
    P.Tells (programTrace eval apply evalTrace applyTrace program) (program.run eval apply) := by
  induction program with
  | done result => exact checked result
  | look next ih =>
    exact look (T := fun s => programTrace eval apply evalTrace applyTrace (next s))
      fun s => ih s fun none => allowed none s
  | ask request next ih =>
    refine (request_told evaluated applied request fun none => (allowed none).1).attempt.bind ?_
    exact fun answer => ih answer fun none => (allowed none).2 answer

theorem host_told (h : HostFunction) (arguments : List Value) :
    P.Tells (hostTrace eval apply evalTrace applyTrace P h arguments)
      (P.call eval apply h arguments) := by
  refine (silent fun s => rfl).bind fun _ => ?_
  exact program_told evaluated applied (P h arguments) fun none => none h arguments

end Programs

/-! ### Compounds -/

theorem evalToFunction_told {T : Trace} {t : Term Value} (told : P.Tells T (eval t)) :
    P.Tells T (evalToFunction eval t) := by
  refine told.before fun v => ?_
  cases v <;> exact silent fun _ => rfl

section Parts
variable (evaluated : ∀ t, P.Tells (evalTrace t) (eval t))
include evaluated

theorem resolve_told (atoms : ∀ name, P.Tells Trace.silent (eval (.atom name))) :
    ∀ head : Term Value, P.Tells (resolveTrace evalTrace head) (resolve eval head)
  | .value _ | .compound _ => evalToFunction_told (evaluated _)
  | .atom name => by
    refine (silent fun _ => rfl : P.Tells Trace.silent get).before fun s => ?_
    split
    · exact pure _
    · split
      · exact pure _
      · exact evalToFunction_told (atoms name)

theorem conditional_told : ∀ parts : List (Term Value),
    P.Tells (conditionalTrace eval evalTrace parts) (evalConditional eval parts)
  | [_, _, _, _] => (evaluated _).bind fun _ => (checked _).bind fun _ => evaluated _
  | [] | [_] | [_, _] | [_, _, _] | _ :: _ :: _ :: _ :: _ :: _ => fail (.wrongBranchCount _)

theorem applyTo_told (applied : ∀ f arguments, P.Tells (applyTrace f arguments) (apply f arguments))
    (atoms : ∀ name, P.Tells Trace.silent (eval (.atom name))) (head : Term Value)
    (arguments : List (Term Value)) :
    P.Tells (applyToTrace eval evalTrace applyTrace head arguments)
      (applyTo eval apply head arguments) := by
  refine (resolve_told evaluated atoms head).bind fun f => (checked _).bind fun _ => ?_
  exact (mapM evaluated arguments).bind fun values => applied f values

end Parts

theorem run_remember_act (key : String) (v : Value) (s : Session) :
    (remember key v).run s = (.ok (), s.mapCache (CacheEvent.act · (.completed key v))) := by
  rw [remember, Run.run_modify]
  change _ = (_, { s with cache := if s.cache.enabled then s.cache.put key v else s.cache })
  split <;> rfl

section Applications
variable {head : Term Value} {arguments : List (Term Value)}
  (told : P.Tells (applyToTrace eval evalTrace applyTrace head arguments)
    (applyTo eval apply head arguments))
include told

theorem application_cache (s : Session) :
    ((evalApplication eval apply head arguments).run s).2.cache =
      s.cache.replay (applicationTrace eval apply evalTrace applyTrace head arguments s) := by
  unfold applicationTrace applicationSteps
  cases enabled : s.cache.enabled with
  | false =>
    rw [Run.run_evalApplication_uncached enabled, told.cache s]
    simp
  | true =>
    cases found : s.cache.get? (Term.compound (head :: arguments)).key with
    | some v =>
      rw [Run.run_evalApplication_kept enabled found]
      simp [completion, Cache.replay, CacheEvent.act, Cache.put_of_get? found]
    | none =>
      rw [Run.run_evalApplication_new enabled found]
      have before := told.cache s
      rcases hrun : (applyTo eval apply head arguments).run s with ⟨halt | v, t⟩ <;>
        rw [hrun] at before
      · rw [Run.run_bind_error hrun]
        simpa [completion] using before
      · rw [Run.run_bind_ok hrun, Run.run_bind_ok (run_remember_act _ v t)]
        simp only [Option.isSome_none, Bool.and_false, Bool.false_eq_true, if_false, if_true,
          Cache.replay_append, ← before]
        rfl

theorem applicationSteps_isResult (s : Session) : ∀ result ∈ CacheEvent.results
    (applicationSteps eval evalTrace applyTrace head arguments s), P.IsResult result := by
  unfold applicationSteps
  split
  · exact fun _ h => by cases h
  · exact told.isResult s

theorem applicationSteps_noQuery (none : P.RunsNoQuery) (s : Session) :
    (applicationSteps eval evalTrace applyTrace head arguments s).any CacheEvent.isQuery =
      false := by
  unfold applicationSteps
  split
  · rfl
  · exact told.noQuery none s

theorem application_told
    (completes : ∀ s v, ((evalApplication eval apply head arguments).run s).1 = .ok v →
      P.IsResult ((Term.compound (head :: arguments)).key, v)) :
    P.Tells (applicationTrace eval apply evalTrace applyTrace head arguments)
      (evalApplication eval apply head arguments) := by
  refine ⟨application_cache told, fun s result h => ?_, fun none s => ?_⟩
  · rw [applicationTrace, CacheEvent.results_append, List.mem_append] at h
    rcases h with h | h
    · exact applicationSteps_isResult told s result h
    · split at h
      · rcases hrun : ((evalApplication eval apply head arguments).run s).1 with halt | v <;>
          rw [hrun] at h
        · cases h
        · obtain rfl := List.mem_singleton.1 h
          exact completes s v hrun
      · cases h
  · rw [applicationTrace, List.any_append, applicationSteps_noQuery told none s]
    split
    · cases ((evalApplication eval apply head arguments).run s).1 <;> rfl
    · rfl

end Applications

theorem compound_told (evaluated : ∀ t, P.Tells (evalTrace t) (eval t))
    (applied : ∀ f arguments, P.Tells (applyTrace f arguments) (apply f arguments))
    (atoms : ∀ name, P.Tells Trace.silent (eval (.atom name)))
    (completes : ∀ head arguments, (Term.compound (head :: arguments)).specialForm? = none →
      ∀ s v, ((evalApplication eval apply head arguments).run s).1 = .ok v →
        P.IsResult ((Term.compound (head :: arguments)).key, v))
    (parts : List (Term Value)) :
    P.Tells (compoundTrace eval apply evalTrace applyTrace parts)
      (evalCompound eval apply parts) := by
  unfold compoundTrace evalCompound
  cases special : (Term.compound parts).specialForm? with
  | some form =>
    cases form with
    | lambda =>
      unfold evalLambda
      exact (checked _).before fun _ => silent fun _ => rfl
    | conditional => exact conditional_told evaluated parts
    | define => exact fail _
  | none =>
    cases parts with
    | nil => exact fail _
    | cons head arguments =>
      have told := applyTo_told evaluated applied atoms head arguments
      exact application_told told (completes head arguments special)

end Steps

namespace Hosting

/-- The trace of an evaluation tells what it does to the cache, at every depth, and so does the
trace of an application of a function. -/
theorem eval_and_apply_told (P : Hosting) (depth : Nat) :
    (∀ t, P.Tells (P.evalTrace depth t) (P.workings.eval depth t)) ∧
      ∀ f arguments, P.Tells (P.applyTrace depth f arguments)
        (P.workings.apply depth f arguments) := by
  induction depth with
  | zero => exact ⟨fun _ => .silent fun _ => rfl, fun _ _ => .silent fun _ => rfl⟩
  | succ depth ih =>
    obtain ⟨evaluated, applied⟩ := ih
    have atoms (name : String) : P.Tells Trace.silent (P.workings.eval depth (.atom name)) := by
      cases depth with
      | zero => exact .silent fun _ => rfl
      | succ depth => exact .silent (evalAtom_cache name)
    constructor
    · intro t
      cases t with
      | value v => exact .pure v
      | atom name => exact .silent (evalAtom_cache name)
      | compound parts =>
        refine compound_told evaluated applied atoms (fun head arguments special s v run => ?_) parts
        refine ⟨depth + 1, head, arguments, s, special, rfl, ?_⟩
        rwa [Workings.eval, evalCompound, special]
    · intro f arguments
      refine (Hosting.Tells.checked _).bind fun _ => ?_
      cases f with
      | primitive p => exact call_told applied p arguments
      | host h => exact host_told evaluated applied h arguments
      | lambda serial parameters body => exact evaluated _

theorem eval_told (P : Hosting) (depth : Nat) (t : Term Value) :
    P.Tells (P.evalTrace depth t) (P.workings.eval depth t) :=
  (P.eval_and_apply_told depth).1 t

end Hosting
end KinQuery
