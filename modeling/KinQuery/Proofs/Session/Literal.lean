import KinQuery.Proofs.Evaluation.Spelled
import KinQuery.Proofs.Session.Cache
import KinQuery.Proofs.Session.Named
import KinQuery.Proofs.Session.Tree
import KinQuery.Proofs.Term.Literal

/-! Literal values are queries that evaluate to themselves.

Whatever a session defines, it defines no word that spells a literal value, and not `list`. And
where results are kept, all that a literal value can be answered with is what the running query
kept for it before, which is the value itself. -/
namespace KinQuery

variable {v : Value} {s t : Session} {n : Nat} {items : List Value}

namespace Session

/-- An entry of the cache that is no literal value's, or is right. -/
def IsRight (entry : String × Value) : Prop :=
  ∀ v : Value, v.IsLiteral → entry.1 = v.key → entry.2 = v

/-- Ready for literal values: `list` is not defined, and the results that may be used are right. -/
structure IsReady (s : Session) : Prop where
  list : s.definition? Primitive.list.name = none
  entries : s.cache.enabled = true → ∀ entry ∈ s.cache.entries, IsRight entry
  pending : s.cache.enabled = true → ∀ entry ∈ s.cache.pending, IsRight entry

namespace IsReady

theorem sameButTree (ready : s.IsReady) (same : s.SameButTree t) : t.IsReady := by
  rcases same with rfl | rfl
  · exact ready
  · exact ⟨ready.list, ready.entries, ready.pending⟩

theorem kept (ready : s.IsReady) (enabled : s.cache.enabled = true) (literal : v.IsLiteral)
    {w : Value} (found : s.cache.get? v.key = some w) : w = v := by
  rcases Cache.mem_of_get? found with found | found
  · exact ready.entries enabled _ found v literal rfl
  · exact ready.pending enabled _ found v literal rfl

/-- A literal value is right for itself, since no other is spelled alike. -/
theorem put (ready : s.IsReady) (literal : v.IsLiteral) : (s.mapCache (·.put v.key v)).IsReady := by
  have right : IsRight (v.key, v) := fun w literal' same => literal.eq_of_key literal' same
  refine ⟨ready.list, ?_, fun enabled entry member => ?_⟩
  · simpa [mapCache] using ready.entries
  · rcases Cache.mem_put_pending member with rfl | member
    · exact right
    · exact ready.pending (by simpa [mapCache] using enabled) entry member

theorem remember (ready : s.IsReady) (literal : v.IsLiteral) :
    ∃ s', s'.IsReady ∧ (remember v.key v).run s = (.ok (), s') := by
  refine ⟨_, ?_, Run.run_modify _ s⟩
  split
  · exact ready.put literal
  · exact ready

theorem run_resolve_list (ready : s.IsReady) (evaluate : Term Value → Run Value) :
    (resolve evaluate (.atom Primitive.list.name)).run s = (.ok (.primitive .list), s) := by
  have known : s.function? Primitive.list.name = some (.primitive .list) := by
    rw [function?, Primitive.list.ofName?_name]
  rw [resolve, Run.run_bind_ok (Run.run_get s), ready.list, known]
  rfl

end IsReady
end Session

/-! ### Evaluation -/

/-- From a session that is ready, the value as a term comes to the value. -/
def Recalls (n : Nat) (v : Value) : Prop :=
  ∀ s : Session, s.IsReady → ∃ s', s'.IsReady ∧ (eval n v.expand).run s = (.ok v, s')

theorem recalls_items (each : ∀ item ∈ items, Recalls n item) (ready : s.IsReady) :
    ∃ s', s'.IsReady ∧ ((items.map Value.expand).mapM (eval n)).run s = (.ok items, s') := by
  induction items generalizing s with
  | nil => exact ⟨s, ready, rfl⟩
  | cons item items ih =>
    obtain ⟨first, rest⟩ := List.forall_mem_cons.1 each
    obtain ⟨s', ready', run⟩ := first s ready
    obtain ⟨s'', ready'', runs⟩ := ih rest ready'
    refine ⟨s'', ready'', ?_⟩
    rw [List.map_cons, List.mapM_cons, Run.run_bind_ok run, Run.run_bind_ok runs]
    rfl

theorem run_applyTo_list (nonempty : items ≠ []) (each : ∀ item ∈ items, Recalls (n + 1) item)
    (ready : s.IsReady) : ∃ s', s'.IsReady ∧
      (applyTo (eval (n + 1)) (apply (n + 1)) (.atom Primitive.list.name)
        (items.map Value.expand)).run s = (.ok (.list items), s') := by
  have length : 1 ≤ items.length := List.length_pos_of_ne_nil nonempty
  obtain ⟨s', ready', runs⟩ := recalls_items each ready
  refine ⟨s', ready', ?_⟩
  rw [applyTo, Run.run_bind_ok (ready.run_resolve_list _), List.length_map,
    checkArity_list length, Run.ofExcept_ok, pure_bind, Run.run_bind_ok runs, apply_primitive,
    checkArity_list length]
  rfl

namespace Value.IsLiteral

/-- A list is answered from the cache, or from its items and then kept. -/
theorem recalls_list {item : Value} (literal : IsLiteral (.list (item :: items)))
    (each : ∀ x ∈ item :: items, Recalls (n + 1) x) : Recalls (n + 2) (.list (item :: items)) := by
  intro s ready
  obtain ⟨s', ready', applied⟩ := run_applyTo_list (by simp) each ready
  have key : (Term.compound (.atom Primitive.list.name :: (item :: items).map expand)).key =
      (Value.list (item :: items)).key := by
    rw [← Value.key_expand, expand, expandItems_eq_map]
    rfl
  have opened : (eval (n + 2) (Value.list (item :: items)).expand).run s =
      (evalApplication (eval (n + 1)) (apply (n + 1)) (.atom Primitive.list.name)
        ((item :: items).map expand)).run s := by
    rw [expand, expandItems_eq_map]
    rfl
  rw [opened]
  cases enabled : s.cache.enabled with
  | true =>
    cases found : s.cache.get? (Value.list (item :: items)).key with
    | some w =>
      obtain rfl := ready.kept enabled literal found
      exact ⟨s, ready, Run.run_evalApplication_kept enabled (key ▸ found)⟩
    | none =>
      obtain ⟨s'', ready'', kept⟩ := ready'.remember literal
      refine ⟨s'', ready'', ?_⟩
      rw [Run.run_evalApplication_new enabled (key ▸ found), key, Run.run_bind_ok applied,
        Run.run_bind_ok kept]
      rfl
  | false =>
    rw [Run.run_evalApplication_uncached enabled]
    exact ⟨s', ready', applied⟩

theorem recalls_word (word : v.IsWord) (n : Nat) : Recalls (n + 1) v := by
  intro s ready
  obtain ⟨s', same, run⟩ := run_evalAtom v.key s
  rw [word.atomAnswer_key] at run
  rw [expand_of_isWord word]
  exact ⟨s', ready.sameButTree same, run⟩

/-- A literal value comes to itself at any depth beyond its height. -/
theorem recalls (literal : v.IsLiteral) : ∀ n, v.expand.height ≤ n → Recalls (n + 1) v := by
  refine literal.induction (fun v word _ n _ => recalls_word word n)
    fun item items each ih n deep => ?_
  rw [expand, expandItems_eq_map] at deep
  cases n with
  | zero => simp [Term.height] at deep
  | succ n =>
    have below := Term.height_le_iff.1 deep
    refine recalls_list (.list each) fun x hx => ih x hx n (below _ ?_)
    exact List.mem_cons_of_mem _ (List.mem_map_of_mem hx)

/-! ### Queries -/

theorem specialForm? (literal : v.IsLiteral) : v.expand.specialForm? = none := by
  rcases literal.isWord_or_list with word | ⟨item, items, rfl, -⟩
  · rw [expand_of_isWord word]
    rfl
  · rw [expand]
    rfl

/-- No session defines a word of a literal value. -/
theorem substitute (literal : v.IsLiteral) (named : s.IsNamed) :
    v.expand.substitute s.bindings = v.expand := by
  refine literal.induction (fun v word other => ?_) fun item items _ ih => ?_
  · have undefined : s.bindings v.key = none := named.undefined fun proper => by
      obtain ⟨p, rfl⟩ := word.eq_primitive proper
      exact other _ rfl
    rw [expand_of_isWord word, Term.substitute, undefined]
  · have list : s.bindings "list" = none := named.undefined_primitive .list
    have same : ((item :: items).map expand).map (Term.substitute s.bindings) =
        (item :: items).map expand := by
      rw [List.map_map]
      exact List.map_congr_left ih
    rw [expand, expandItems_eq_map, Term.substitute_parts _ (by simp) (by simp), List.map_cons,
      Term.substitute, list]
    exact congrArg (fun parts => Term.compound (.atom "list" :: parts)) same

end Value.IsLiteral

namespace Session

theorem Lived.isNamed (lived : s.Lived) : s.IsNamed := by
  induction lived with
  | start dictionary today accepted => exact ⟨by simp, by simp⟩
  | editDirectly edit _ ih => exact ih.sameNames ⟨rfl, rfl⟩
  | @edit edit s _ ih =>
    refine ih.sameNames ?_
    unfold editInPlace
    split
    · exact ⟨rfl, rfl⟩
    · exact ⟨rfl, rfl⟩
  | tree _ ih => exact ih.sameNames ⟨rfl, rfl⟩
  | exec depth query _ ih => exact ih.exec depth query
  | eval depth t _ ih => exact ih.sameNames (eval_sameNames depth t _)
  | @apply depth f arguments s _ ih =>
    have applied := (Run.namingContract.eval_and_apply depth).2 f arguments trivial
      (fun _ _ => trivial) s trivial
    exact ih.sameNames applied.2.1
  | register registered _ ih => exact ih.register registered
  | setCaching enabled _ ih => exact ih.sameNames ⟨rfl, rfl⟩
  | expunge _ ih => exact ih.sameNames ⟨rfl, rfl⟩
  | @putKinshipTerm key name s _ ih => exact ih.sameNames (s.putKinshipTerm_sameNames key name)

theorem IsNamed.isReady (named : s.IsNamed)
    (unkept : s.cache.size = 0 ∨ s.cache.enabled = false) : (s.mapCache .discard).IsReady := by
  refine ⟨named.undefined_primitive .list, fun enabled => ?_, fun _ => ?_⟩
  · simp [mapCache, Cache.discard, Cache.entries_of_unkept unkept enabled]
  · simp [mapCache, Cache.discard]

/-- The term of a literal value is a query that returns what evaluation makes of it. -/
theorem IsNamed.exec_of_eval (named : s.IsNamed) (literal : v.IsLiteral)
    (run : (eval n v.expand).run (s.mapCache .discard) = (.ok v, t)) :
    (s.exec n v.term).1 = .ok v :=
  Session.exec_of_eval literal.readQuery literal.specialForm? (literal.substitute named) run

/-- The word of a literal value returns the value, whether results are kept or not. -/
theorem IsNamed.exec_word (named : s.IsNamed) (literal : v.IsLiteral) (word : v.IsWord) (n : Nat) :
    (s.exec (n + 1) v.term).1 = .ok v := by
  obtain ⟨t, -, run⟩ := run_evalAtom v.key (s.mapCache .discard)
  rw [word.atomAnswer_key] at run
  refine named.exec_of_eval literal (t := t) ?_
  rw [Value.expand_of_isWord word]
  exact run

/-- Whatever a session lives through, while it keeps no results the term of a literal value is
a query that returns the value. -/
theorem Lived.exec_literal (lived : s.Lived) (literal : v.IsLiteral)
    (unkept : s.cache.size = 0 ∨ s.cache.enabled = false) :
    ∃ bound, ∀ depth, bound ≤ depth → (s.exec depth v.term).1 = .ok v := by
  refine ⟨v.expand.height + 1, fun depth deep => ?_⟩
  obtain ⟨n, rfl⟩ : ∃ n, depth = n + 1 := ⟨depth - 1, by omega⟩
  obtain ⟨s', -, run⟩ := literal.recalls n (by omega) _ (lived.isNamed.isReady unkept)
  exact lived.isNamed.exec_of_eval literal run

/-- After a definition, a list of a string that looks like terms, a date and an empty list. -/
theorem Lived.exec_literal_list :
    ∃ (s : Session) (v : Value), s.Lived ∧ s.definitions.length = 1 ∧ s.cache.size = 0 ∧
      v.term = "(list '(list x)  ;' 15.6.2020 vacant)" ∧
      ∃ bound, ∀ depth, bound ≤ depth → (s.exec depth v.term).1 = .ok v := by
  let today : Date := ⟨2020, 6, 15, by decide, by decide, by decide, by decide⟩
  let start : Session := { today }
  let v : Value := .list [.string "(list x)  ;", .date today, .list []]
  have read : KinQuery.readQuery "(define x true)" =
      .ok (.compound [.atom "define", .atom "x", .atom "true"]) := by cbv
  have lived : (start.exec 3 "(define x true)").2.Lived :=
    .exec 3 _ (@Lived.start [] [] {} {} today rfl)
  have empty : (start.exec 3 "(define x true)").2.cache.size = 0 := by
    rw [exec_of_read read]
    decide +kernel
  have literal : v.IsLiteral := by
    refine .list ?_
    simp only [List.mem_cons, List.not_mem_nil, or_false]
    rintro item (rfl | rfl | rfl)
    · exact .string (by decide) (by decide)
    · exact .date (by decide) (by decide)
    · exact .list (by simp)
  refine ⟨_, v, lived, ?_, empty, by decide +kernel, lived.exec_literal literal (.inl empty)⟩
  rw [exec_of_read read]
  decide +kernel

end Session
end KinQuery
