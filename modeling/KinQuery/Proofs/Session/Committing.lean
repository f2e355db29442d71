import KinQuery.Proofs.Caching.Told
import KinQuery.Proofs.Session.FailedQuery

/-! What queries commit.

While a query runs, the results of the applications that it completes are put in, in the order
of its trace. Nothing that is committed changes by that. The end of the query forgets the results
or commits those that are new.

Registered functions may look at the session, evaluate terms, apply functions, register others,
run queries and keep a state. What is committed stays as long as nothing empties the cache. That
a query commits just what it completes, and nothing if it fails, needs that no registered function
runs a query while it is called: the end of such a query commits or forgets results of its own and
of the query that is still running. -/
namespace KinQuery.Session

variable {P : Hosting} {s t : Session} {depth : Nat} {query : String}

/-! ### Single queries -/

/-- The results of the applications that a query completes. -/
def queryResults (P : Hosting) (depth : Nat) (query : String) (s : Session) :
    List (String × Value) :=
  CacheEvent.results (P.queryTrace depth query s)

/-- While the query runs, nothing empties the cache or turns caching off or on. -/
def IsUndisturbed (P : Hosting) (depth : Nat) (query : String) (s : Session) : Prop :=
  (P.queryTrace depth query s).any CacheEvent.isDisturbance = false

instance (P : Hosting) (depth : Nat) (query : String) (s : Session) :
    Decidable (IsUndisturbed P depth query s) :=
  inferInstanceAs (Decidable (_ = false))

/-- Caching is on and stays on, nothing empties the cache, and no registered function runs a query
of its own. -/
structure IsQuiet (P : Hosting) (depth : Nat) (query : String) (s : Session) : Prop where
  enabled : s.cache.enabled = true
  undisturbed : IsUndisturbed P depth query s
  noQuery : (taskTrace (P.evalTrace depth) query s).any CacheEvent.isQuery = false

/-- Registered functions whose programs run no queries run none. -/
theorem noQuery_of_runsNoQuery (none : P.RunsNoQuery) (depth : Nat) (query : String)
    (s : Session) : (taskTrace (P.evalTrace depth) query s).any CacheEvent.isQuery = false :=
  taskTrace_noQuery (P.eval_told depth) none query s

theorem queryResults_eq (P : Hosting) (depth : Nat) (query : String) (s : Session) :
    queryResults P depth query s = CacheEvent.results (taskTrace (P.evalTrace depth) query s) := by
  change CacheEvent.results (_ ++ _) = _
  rw [CacheEvent.results_append]
  exact List.append_nil _

theorem queryResults_isResult (P : Hosting) (depth : Nat) (query : String) (s : Session) :
    ∀ result ∈ queryResults P depth query s, P.IsResult result := by
  rw [queryResults_eq]
  exact taskTrace_isResult (P.eval_told depth) query s

theorem IsQuiet.completions (quiet : IsQuiet P depth query s) :
    (taskTrace (P.evalTrace depth) query s).all CacheEvent.isCompletion = true := by
  have undisturbed := List.any_eq_false.1 quiet.undisturbed
  have noQuery := List.any_eq_false.1 quiet.noQuery
  refine List.all_eq_true.2 fun event member => ?_
  have within : event ∈ P.queryTrace depth query s :=
    List.mem_cons_of_mem _ (List.mem_append_left _ member)
  simp [CacheEvent.isCompletion_eq, undisturbed event within, noQuery event member]

/-- Whatever registered functions do, the events of a query tell what it does to the cache. -/
theorem exec_cache (P : Hosting) (depth : Nat) (query : String) (s : Session) :
    (P.workings.exec depth query s).2.cache = s.cache.replay (P.queryTrace depth query s) :=
  execBy_cache (P.eval_told depth) query s

/-- What is committed stays, whether the query succeeds or not. -/
theorem exec_persists (undisturbed : IsUndisturbed P depth query s) :
    s.cache.Persists (P.workings.exec depth query s).2.cache := by
  rw [exec_cache]
  exact Cache.persists_replay undisturbed

/-- A quiet query puts its results in and ends. -/
theorem IsQuiet.exec_cache (quiet : IsQuiet P depth query s) :
    (P.workings.exec depth query s).2.cache =
      CacheEvent.act (s.cache.discard.putAll (queryResults P depth query s))
        (.ended (P.workings.exec depth query s).1.isOk) := by
  rw [Session.exec_cache, queryResults_eq,
    ← Cache.replay_completions (c := s.cache.discard) quiet.enabled quiet.completions]
  change Cache.replay s.cache.discard (_ ++ _) = _
  rw [Cache.replay_append]
  rfl

theorem exec_error_entries (quiet : IsQuiet P depth query s) {halt : Halt}
    (failed : (P.workings.exec depth query s).1 = .error halt) :
    (P.workings.exec depth query s).2.cache.entries = s.cache.entries := by
  rw [quiet.exec_cache, failed]
  change (s.cache.discard.putAll (queryResults P depth query s)).entries = s.cache.entries
  rw [Cache.putAll_entries]
  rfl

/-- A query that succeeds commits the first result for each key that is not committed. -/
theorem exec_ok_entries (quiet : IsQuiet P depth query s) {v : Value}
    (ok : (P.workings.exec depth query s).1 = .ok v) :
    ∃ added : List (String × Value),
      (P.workings.exec depth query s).2.cache.entries = added ++ s.cache.entries ∧
        (added.map (·.1)).Nodup ∧ ∀ key w, (key, w) ∈ added ↔
          s.cache.entries.lookup key = none ∧
            (queryResults P depth query s).lookup key = some w := by
  have distinct := s.cache.isDistinct_discard.putAll (queryResults P depth query s)
  refine ⟨(s.cache.discard.putAll (queryResults P depth query s)).pending.reverse, ?_, ?_, ?_⟩
  · rw [quiet.exec_cache, ok]
    change (s.cache.discard.putAll (queryResults P depth query s)).commit.entries = _
    rw [distinct.commit_entries, Cache.putAll_entries]
    rfl
  · rw [List.map_reverse, List.nodup_reverse]
    exact distinct.nodup
  · intro key w
    rw [List.mem_reverse, distinct.mem_pending_iff, Cache.putAll_entries, Cache.get?_putAll]
    refine and_congr_right fun uncommitted => ?_
    have absent : s.cache.discard.get? key = none := Option.or_eq_none_iff.2 ⟨uncommitted, rfl⟩
    rw [absent, Option.none_or]

/-! ### Runs of queries -/

/-- The second session comes from the first by queries none of which disturbs the cache. -/
inductive Undisturbed (P : Hosting) (s : Session) : Session → Prop
  | none : Undisturbed P s s
  | query {t : Session} (depth : Nat) (query : String) :
      Undisturbed P s t → IsUndisturbed P depth query t →
        Undisturbed P s (P.workings.exec depth query t).2

theorem Undisturbed.persists (run : Undisturbed P s t) : s.cache.Persists t.cache := by
  induction run with
  | none => exact .refl s.cache
  | query depth query _ undisturbed ih => exact ih.trans (exec_persists undisturbed)

/-- An application whose key is committed is answered at once, and changes nothing. -/
theorem run_eval_committed {u : Session} (enabled : u.cache.enabled = true) {head : Term Value}
    {arguments : List (Term Value)} {v : Value}
    (special : (Term.compound (head :: arguments)).specialForm? = none)
    (committed : u.cache.entries.lookup (Term.compound (head :: arguments)).key = some v)
    (depth : Nat) :
    (P.workings.eval (depth + 1) (.compound (head :: arguments))).run u = (.ok v, u) := by
  have found : u.cache.get? (Term.compound (head :: arguments)).key = some v := by
    rw [Cache.get?, committed]
    rfl
  rw [Workings.eval, evalCompound, special]
  exact Run.run_evalApplication_kept enabled found

/-- In a run of queries in which nothing empties the cache or turns caching off or on, committed
results stay as they are, whatever the registered functions do. With caching on, and if no
registered function runs a query of its own, a failing query commits nothing, and a query that
succeeds commits the results of the applications that it completes, for the keys that are not
committed yet, and of several results for a key the first. An application whose key is committed
is answered with what is committed, and no registered function is called. -/
theorem undisturbed_commits (run : Undisturbed P s t) :
    (∀ key v, s.cache.entries.lookup key = some v → t.cache.entries.lookup key = some v) ∧
      (∀ depth query, IsQuiet P depth query t →
        (∀ halt, (P.workings.exec depth query t).1 = .error halt →
          (P.workings.exec depth query t).2.cache.entries = t.cache.entries) ∧
        (∀ answer, (P.workings.exec depth query t).1 = .ok answer →
          ∃ added : List (String × Value),
            (P.workings.exec depth query t).2.cache.entries = added ++ t.cache.entries ∧
              (added.map (·.1)).Nodup ∧ ∀ key v, (key, v) ∈ added ↔
                t.cache.entries.lookup key = none ∧
                  (queryResults P depth query t).lookup key = some v) ∧
        ∀ result ∈ queryResults P depth query t, P.IsResult result) ∧
      ∀ u : Session, u.cache.enabled = true → u.cache.entries = t.cache.entries →
        ∀ depth head arguments v, (Term.compound (head :: arguments)).specialForm? = none →
          t.cache.entries.lookup (Term.compound (head :: arguments)).key = some v →
            (P.workings.eval (depth + 1) (.compound (head :: arguments))).run u = (.ok v, u) := by
  refine ⟨run.persists, fun depth query quiet => ⟨fun halt => exec_error_entries quiet,
    fun answer => exec_ok_entries quiet, queryResults_isResult P depth query t⟩, ?_⟩
  intro u enabled same depth head arguments v special committed
  exact run_eval_committed enabled special (same ▸ committed) depth

/-- A function that adds its argument to itself when it is called for the first time, and returns
it from then on. What is committed of the first call is answered in the next query, which commits
the second call. -/
theorem undisturbed_commits_once :
    let once : HostFunction := { name := "once", arity := .exactly 1, action := .first }
    let P : Hosting := fun _ arguments => .look fun s =>
      if s.hostCalls.length = 1 then
        .ask (.eval (.compound (.atom "+" :: (arguments ++ arguments).map .value))) .done
      else .done (.ok (arguments.head?.getD .void))
    let start : Session := { fresh with hosts := [once] }
    let first : Term Value := .compound [.atom "once", .atom "5"]
    let query := "(list (once 5) (once 6))"
    let t := (P.workings.exec 5 "(once 5)" start).2
    P.RunsNoQuery ∧ Undisturbed P start t ∧ IsQuiet P 5 query t ∧
      t.cache.entries.map (fun entry => (entry.1, entry.2.term)) =
        [("(+ 5 5)", "10"), ("(once 5)", "10")] ∧
      (queryResults P 5 query t).map (fun result => (result.1, result.2.term)) =
        [("(once 5)", "10"), ("(once 6)", "6"), (query, "(list 10 6)")] ∧
      (∃ added : List (String × Value),
        (P.workings.exec 5 query t).2.cache.entries = added ++ t.cache.entries ∧
          (added.map (·.1)).Nodup ∧ ∀ key v, (key, v) ∈ added ↔
            t.cache.entries.lookup key = none ∧
              (queryResults P 5 query t).lookup key = some v) ∧
      ∃ v, t.cache.entries.lookup first.key = some v ∧
        (P.workings.eval 5 first).run t = (.ok v, t) := by
  intro once P start first query t
  have none : P.RunsNoQuery := by
    intro h arguments s
    dsimp only
    split
    · exact ⟨rfl, fun _ => trivial⟩
    · trivial
  have quiet : IsQuiet P 5 "(once 5)" start :=
    ⟨rfl, by decide +kernel, noQuery_of_runsNoQuery none _ _ _⟩
  have quiet' : IsQuiet P 5 query t :=
    ⟨by decide +kernel, by decide +kernel, noQuery_of_runsNoQuery none _ _ _⟩
  have run : Undisturbed P start t := .query 5 "(once 5)" .none quiet.undisturbed
  have entries : t.cache.entries.map (fun entry => (entry.1, entry.2.term)) =
      [("(+ 5 5)", "10"), ("(once 5)", "10")] := by decide +kernel
  have results : (queryResults P 5 query t).map (fun result => (result.1, result.2.term)) =
      [("(once 5)", "10"), ("(once 6)", "6"), (query, "(list 10 6)")] := by decide +kernel
  have present : (t.cache.entries.lookup first.key).isSome = true := by decide +kernel
  obtain ⟨v, committed⟩ := Option.isSome_iff_exists.1 present
  have succeeds : (P.workings.exec 5 query t).1.toOption.isSome = true := by decide +kernel
  cases hanswer : (P.workings.exec 5 query t).1 with
  | error halt =>
    rw [hanswer] at succeeds
    cases succeeds
  | ok answer =>
    obtain ⟨-, commits, answers⟩ := undisturbed_commits run
    exact ⟨none, run, quiet', entries, results, (commits 5 query quiet').2.1 answer hanswer, v,
      committed, answers t quiet'.enabled rfl 4 (.atom "once") [.atom "5"] v rfl committed⟩

/-- A query that a registered function runs is committed though the query that called the function
fails, and what that one has completed before the call is dropped even if it succeeds. -/
example :
    let nest : HostFunction := { name := "nest", arity := .exactly 0, action := .first }
    let P : Hosting := fun _ _ => .ask (.exec "(list 1)") .done
    let start : Session := { fresh with hosts := [nest] }
    let committed (query : String) := (P.workings.exec 5 query start).2.cache.entries.map (·.1)
    (P.workings.exec 5 "(list (nest) x)" start).1.map Value.term =
        .error (.failed (.unbound "x")) ∧
      committed "(list (nest) x)" = ["(list 1)"] ∧
      committed "(list (+ 1 2) (nest))" = ["(nest)", "(list (+ 1 2) (nest))", "(list 1)"] := by
  decide +kernel

end KinQuery.Session
