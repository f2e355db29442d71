import KinQuery.Proofs.Dictionary.Growth
import KinQuery.Proofs.Evaluation.LambdaParts
import KinQuery.Proofs.Session.Held

/-! What a failing query leaves behind.

Without registered functions, evaluation changes neither the definitions nor the genealogy,
and changes the committed results only with the dictionary. The dictionary it can change, by
`put-kinship-term`, and a failure that comes later does not take the addition back. -/
namespace KinQuery

open Dictionary (Grows)

variable {allowed : Primitive → Prop} {s t u : Session}

namespace Session

/-- No registered function is in reach, and only primitives that are allowed. -/
abbrev Obeys (g : Vocabulary) (s : Session) : Prop :=
  s.All (Value.Obeys g)

/-- How evaluation without registered functions may change a session. -/
structure Grown (allowed : Primitive → Prop) (s t : Session) : Prop where
  definitions : t.definitions = s.definitions
  snapshot : t.genealogy.snapshot = s.genealogy.snapshot
  dictionary : ∃ added, Grows s.dictionary added t.dictionary ∧
    (added = [] → t.cache.entries = s.cache.entries) ∧ (added ≠ [] → allowed .putKinshipTerm)

/-- Nothing that outlives a query has changed. -/
structure Untouched (s t : Session) : Prop where
  definitions : t.definitions = s.definitions
  entries : t.cache.entries = s.cache.entries
  snapshot : t.genealogy.snapshot = s.genealogy.snapshot
  dictionary : t.dictionary = s.dictionary

namespace Grown

theorem of_untouched (h : Untouched s t) : Grown allowed s t :=
  ⟨h.definitions, h.snapshot, [], h.dictionary ▸ .none, fun _ => h.entries, fun h => absurd rfl h⟩

theorem refl (s : Session) : Grown allowed s s :=
  of_untouched ⟨rfl, rfl, rfl, rfl⟩

theorem trans (first : Grown allowed s t) (second : Grown allowed t u) : Grown allowed s u := by
  obtain ⟨added, grows, kept, may⟩ := first.dictionary
  obtain ⟨others, grows', kept', may'⟩ := second.dictionary
  refine ⟨second.definitions.trans first.definitions, second.snapshot.trans first.snapshot,
    added ++ others, grows.trans grows', fun none => ?_, fun some => ?_⟩
  · obtain ⟨none, none'⟩ := List.append_eq_nil_iff.1 none
    rw [kept' none', kept none]
  · by_cases none : added = []
    · exact may' (by simpa [none] using some)
    · exact may none

end Grown

/-! ### The steps of evaluation -/

theorem SameButTree.untouched (h : s.SameButTree t) : Untouched s t := by
  rcases h with rfl | rfl
  · exact ⟨rfl, rfl, rfl, rfl⟩
  · exact ⟨rfl, rfl, s.genealogy.snapshot_tree, rfl⟩

theorem untouched_put (s : Session) (key : String) (v : Value) :
    Untouched s (s.mapCache (·.put key v)) :=
  ⟨rfl, s.cache.put_entries key v, rfl, rfl⟩

theorem putKinshipTerm_grown (may : allowed .putKinshipTerm) (s : Session) (key name : String) :
    Grown allowed s (s.putKinshipTerm key name).2 := by
  obtain ⟨added, grows, some⟩ := Grows.of_put s.dictionary key name
  rw [putKinshipTerm_eq]
  refine ⟨rfl, rfl, added, grows, fun none => ?_, fun _ => may⟩
  have notMade : (s.dictionary.put key name).1 ≠ .ok true := fun made => some made none
  exact congrArg Cache.entries (if_neg notMade)

end Session

/-! ### Evaluation -/

/-- Evaluation without registered functions changes a session by growth alone. -/
def Run.growth (allowed : Primitive → Prop) : Run.Discipline where
  holds s := s.Obeys (.over allowed)
  change := Session.Grown allowed
  refl := Session.Grown.refl
  trans := Session.Grown.trans

theorem Run.growth_kept (s t : Session) (hs : (growth allowed).holds s) (same : s.SameButTree t) :
    (growth allowed).holds t ∧ (growth allowed).change s t :=
  ⟨same.all hs, .of_untouched same.untouched⟩

theorem evalAtom_growth {name : String} (hname : (Vocabulary.over allowed).atom name) :
    Run.Triple (Run.growth allowed) (·.Obeys (.over allowed)) (evalAtom name) := by
  refine Primitive.triple_of_sameButTree Run.growth_kept fun s hs => ?_
  obtain ⟨t, same, hrun⟩ := run_evalAtom name s
  refine ⟨t, _, same, hrun, fun v hv => hs.atomAnswer Value.isTransparent_over ?_ hv⟩
  exact fun p hp => Value.obeys_over_primitive.2 (hname p hp)

theorem evalLambda_growth {parts : List (Term Value)}
    (good : (Term.compound parts).Obeys (.over allowed)) :
    Run.Triple (Run.growth allowed) (·.Obeys (.over allowed)) (evalLambda parts) := by
  refine (Run.Triple.ofExcept fun known h =>
    Term.obeys_compound.1 good _ (mem_of_lambdaParts h)).bind fun known hbody => ?_
  refine Run.Triple.modifyGet fun s hs => ⟨?_, ?_, ?_⟩
  · exact ⟨hs.hosts, hs.definitions, hs.entries, hs.pending, hs.calls⟩
  · exact .of_untouched ⟨rfl, rfl, rfl, rfl⟩
  · exact Value.obeys_lambda.2 ⟨trivial, hbody⟩

theorem call_growth {p : Primitive} (apply : Function Value → List Value → Run Value)
    {arguments : List Value} (hf : p ≠ .filter) (hm : p ≠ .map)
    (hp : (Value.function (.primitive p)).Obeys (.over allowed))
    (good : ∀ v ∈ arguments, v.Obeys (.over allowed)) :
    Run.Triple (Run.growth allowed) (·.Obeys (.over allowed)) (p.call apply arguments) := by
  have transparent : Value.IsTransparent (·.Obeys (.over allowed)) := Value.isTransparent_over
  refine Primitive.triple_call apply hf hm (transparent.plain rfl) Run.growth_kept
    (fun _ _ _ hv => transparent.answer good hv) fun put s hs key name _ => ?_
  have may : allowed .putKinshipTerm := put ▸ Value.obeys_over_primitive.1 hp
  exact ⟨hs.putKinshipTerm key name, Session.putKinshipTerm_grown may s key name⟩

def growthContract (allowed : Primitive → Prop) : Run.Contract where
  toDiscipline := Run.growth allowed
  term := (·.Obeys (.over allowed))
  value := (·.Obeys (.over allowed))
  value_of_term _ h := Term.obeys_value.1 h
  term_of_part _ h := Term.obeys_compound.1 h
  list_iff _ := Value.obeys_list
  atom _ h := evalAtom_growth (Term.obeys_atom.1 h)
  definition _ hs _ _ h := hs.definitions _ (Session.definition?_mem h)
  function _ hs _ _ hname h :=
    hs.function (fun p hp => Value.obeys_over_primitive.2 (Term.obeys_atom.1 hname p hp)) h
  lambda _ h := evalLambda_growth h
  cached _ hs _ _ h := hs.cached h
  remember key v hv := by
    refine Run.Triple.modify fun s hs => ?_
    by_cases enabled : s.cache.enabled = true
    · rw [if_pos enabled]
      exact ⟨hs.put hv key, .of_untouched (s.untouched_put key v)⟩
    · rw [if_neg enabled]
      exact ⟨hs, .refl s⟩
  body _ _ _ _ hf good := hf.body good
  call _ apply _ hf hm hp good := call_growth apply hf hm hp good
  host _ _ h _ := absurd h Value.not_obeys_over_host

/-! ### Queries -/

namespace Session

theorem untouched_discard (s : Session) : Untouched s (s.mapCache .discard) :=
  ⟨rfl, rfl, rfl, rfl⟩

/-- A task keeps out what was kept out before, and if it fails, the session has at most
grown. -/
theorem perform_growth (hs : s.Obeys (.over allowed)) (depth : Nat) {r : Except Failure Task}
    (good : ∀ task, r = .ok task → task.term.Obeys (.over allowed)) :
    (s.perform depth r).2.Obeys (.over allowed) ∧
      ∀ halt, (s.perform depth r).1 = .error halt → Grown allowed s (s.perform depth r).2 := by
  cases r with
  | error failure => exact ⟨hs, fun _ _ => .refl s⟩
  | ok task =>
    have evaluated := (growthContract allowed).eval (good task rfl) depth s hs
    change (task.run depth s).2.Obeys (.over allowed) ∧
      ∀ halt, (task.run depth s).1 = .error halt → Grown allowed s (task.run depth s).2
    unfold Task.run Task.runBy
    rcases hrun : (eval depth task.term).run s with ⟨halt | v, t⟩
    · rw [hrun] at evaluated
      exact ⟨evaluated.1, fun _ _ => evaluated.2.1⟩
    · rw [hrun] at evaluated
      exact ⟨evaluated.1.settle (evaluated.2.2 v rfl) task, fun _ h => by cases h⟩

theorem exec_growth (hs : s.Obeys (.over allowed)) (depth : Nat) {query : String}
    (atoms : ∀ t, readQuery query = .ok t → t.Obeys (.over allowed)) :
    (s.exec depth query).2.Obeys (.over allowed) ∧
      ∀ halt, (s.exec depth query).1 = .error halt → Grown allowed s (s.exec depth query).2 := by
  have performed := perform_growth hs.discard depth fun task htask =>
    task_obeys atoms hs.definitions htask
  rw [exec_eq]
  rcases hrun : (s.mapCache .discard).perform depth (s.task query) with ⟨halt | v, t⟩ <;>
    rw [hrun] at performed
  · refine ⟨performed.1.discard, fun _ _ => ?_⟩
    have grown := performed.2 halt rfl
    exact ((Grown.of_untouched s.untouched_discard).trans grown).trans
      (.of_untouched t.untouched_discard)
  · exact ⟨performed.1.commit, fun _ h => by cases h⟩

/-- The sessions that come about without registered functions. -/
inductive Reachable : Session → Prop
  | start (genealogy : Genealogy) (dictionary : Dictionary) (today : Date) :
      Reachable { genealogy, dictionary, today }
  | exec (depth : Nat) (query : String) {s : Session} :
      Reachable s → Reachable (s.exec depth query).2
  | setCaching (enabled : Bool) {s : Session} : Reachable s → Reachable (s.setCaching enabled)
  | expunge {s : Session} : Reachable s → Reachable s.expunge
  | tree {s : Session} : Reachable s → Reachable s.tree.2
  | edit (change : Genealogy → Except Failure Genealogy) {s t : Session} :
      s.edit change = .ok t → Reachable s → Reachable t
  | putKinshipTerm (key name : String) {s : Session} :
      Reachable s → Reachable (s.putKinshipTerm key name).2
  /-- A term, with or without values in it, that is evaluated as it is. -/
  | eval (depth : Nat) (t : Term Value) {s : Session} : t.Obeys (.over fun _ => True) →
      Reachable s → Reachable ((KinQuery.eval depth t).run s).2

theorem Reachable.obeys (h : Reachable s) : s.Obeys (.over fun _ => True) := by
  induction h with
  | start genealogy dictionary today => exact .of_empty rfl rfl rfl rfl rfl
  | exec depth query _ ih =>
    exact (exec_growth ih depth fun t ht => readQuery_obeys (fun _ _ _ _ => trivial) ht).1
  | setCaching enabled _ ih => exact ih.setCaching enabled
  | expunge _ ih => exact ih.expunge
  | @tree s _ ih => exact SameButTree.all (.inr rfl) ih
  | edit change h _ ih => exact ih.edit h
  | putKinshipTerm key name _ ih => exact ih.putKinshipTerm key name
  | eval depth t ht _ ih => exact ((growthContract _).eval ht depth _ ih).1

/-- A failing query changes neither the definitions nor the genealogy, but the additions that
it made to the dictionary stay; it leaves no trace exactly if it made none. -/
theorem exec_error_untouched_iff (reachable : Reachable s) (depth : Nat) (query : String)
    {halt : Halt} (failed : (s.exec depth query).1 = .error halt) :
    (s.exec depth query).2.definitions = s.definitions ∧
      (s.exec depth query).2.genealogy.snapshot = s.genealogy.snapshot ∧
      ∃ added, Grows s.dictionary added (s.exec depth query).2.dictionary ∧
        (Untouched s (s.exec depth query).2 ↔ added = []) := by
  have grown := (exec_growth reachable.obeys depth fun t ht =>
    readQuery_obeys (fun _ _ _ _ => trivial) ht).2 halt failed
  obtain ⟨added, grows, kept, -⟩ := grown.dictionary
  refine ⟨grown.definitions, grown.snapshot, added, grows, fun untouched => ?_, fun none => ?_⟩
  · exact grows.eq_iff.1 untouched.dictionary
  · exact ⟨grown.definitions, kept none, grown.snapshot, grows.eq_iff.2 none⟩

/-- A new session, on a fixed day. -/
def fresh : Session where
  today := ⟨2020, 6, 15, by decide, by decide, by decide, by decide⟩

/-- A query that completes an application, and then fails, in a session with a definition, a result
and an entry in the dictionary. -/
theorem exec_error_untouched_iff_pending :
    let start := { fresh with dictionary := (Dictionary.empty.put "a" "b").2 }
    let s := (start.exec 4 "(define two (+ 1 1))").2
    let t := (s.exec 4 "(list (+ two 1) x)").2
    s.definitions.map (·.1) = ["two"] ∧ s.cache.entries.map (·.1) = ["(+ 1 1)"] ∧
      s.dictionary.entries = [("a", "b")] ∧
      (s.exec 4 "(list (+ two 1) x)").1.map Value.term = .error (.failed (.unbound "x")) ∧
      t.definitions = s.definitions ∧ t.genealogy.snapshot = s.genealogy.snapshot ∧
      ∃ added, Grows s.dictionary added t.dictionary ∧ (Untouched s t ↔ added = []) := by
  intro start s t
  have shown : (s.exec 4 "(list (+ two 1) x)").1.map Value.term =
      .error (.failed (.unbound "x")) := by decide +kernel
  have reachable : Reachable s := .exec _ _ (.start _ _ _)
  cases failed : (s.exec 4 "(list (+ two 1) x)").1 with
  | ok v =>
    rw [failed] at shown
    cases shown
  | error halt =>
    rw [failed] at shown
    exact ⟨by decide +kernel, by decide +kernel, by decide +kernel, shown,
      exec_error_untouched_iff reachable 4 "(list (+ two 1) x)" failed⟩

/-- The addition of a query that fails afterwards stays in the dictionary, and the results of
earlier queries are gone. -/
theorem exec_error_leaves_addition :
    ∃ s, Reachable s ∧ s.cache.size = 1 ∧ s.dictionary.entries = [] ∧
      (s.exec 3 "(list (put-kinship-term 'a' 'b') x)").1 = .error (.failed (.unbound "x")) ∧
      (s.exec 3 "(list (put-kinship-term 'a' 'b') x)").2.cache.size = 0 ∧
      (s.exec 3 "(list (put-kinship-term 'a' 'b') x)").2.dictionary.entries = [("a", "b")] := by
  have earlier : readQuery "(list true)" = .ok (.compound [.atom "list", .atom "true"]) := by cbv
  have read : readQuery "(list (put-kinship-term 'a' 'b') x)" =
      .ok (.compound [.atom "list",
        .compound [.atom "put-kinship-term", .atom "'a'", .atom "'b'"], .atom "x"]) := by cbv
  refine ⟨(fresh.exec 3 "(list true)").2, .exec _ _ (.start _ _ _), ?_⟩
  rw [exec_of_read earlier, exec_of_read read]
  refine ⟨?_, ?_, rfl, ?_, ?_⟩ <;> decide +kernel

/-- A failing query that cannot reach `put-kinship-term` leaves no trace. -/
theorem exec_error_untouched (hs : s.Obeys (.over (· ≠ .putKinshipTerm))) (depth : Nat)
    {query : String} (atoms : ∀ t, readQuery query = .ok t → t.Obeys (.over (· ≠ .putKinshipTerm)))
    {halt : Halt} (failed : (s.exec depth query).1 = .error halt) :
    Untouched s (s.exec depth query).2 := by
  have grown := (exec_growth hs depth atoms).2 halt failed
  obtain ⟨added, grows, kept, may⟩ := grown.dictionary
  have none : added = [] := by
    by_contra some
    exact may some rfl
  exact ⟨grown.definitions, kept none, grown.snapshot, grows.eq_iff.2 none⟩

end Session
end KinQuery
