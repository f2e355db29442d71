import KinQuery.Proofs.Evaluation.Naming
import KinQuery.Proofs.Evaluation.Simulation
import KinQuery.Proofs.Session.Held
import KinQuery.Proofs.Term.Formed

/-! The values that evaluation makes.

Their words could have been read, and their lambdas have proper parameters. If the registered
functions in reach bear proper names and leave caching as it is, this stays so as well. -/
namespace KinQuery

open Run (Triple)

variable {h : HostFunction} {arguments : List Value}

theorem Value.isTransparent_isFormed : IsTransparent IsFormed where
  list _ := Value.isFormed_list
  leaf v plain other := by
    cases v with
    | list items => exact absurd rfl (other items)
    | function f => simp [isPlain] at plain
    | _ => simp [IsFormed]

/-! ### Evaluation -/

/-- Evaluation may do what it likes to sessions whose values stay formed. -/
def Run.forming : Run.Discipline where
  holds s := s.All Value.IsFormed
  change _ _ := True
  refl _ := trivial
  trans _ _ := trivial

theorem Run.forming_kept (s t : Session) (hs : forming.holds s) (same : s.SameButTree t) :
    forming.holds t ∧ forming.change s t :=
  ⟨same.all hs, trivial⟩

theorem hostCall_formed (passive : h.action.isPassive = true)
    (good : ∀ v ∈ arguments, v.IsFormed) :
    Triple Run.forming Value.IsFormed (h.call arguments) := by
  have first : (arguments.head?.getD .void).IsFormed := by
    cases arguments with
    | nil => exact Value.isTransparent_isFormed.plain rfl
    | cons v arguments => exact good v List.mem_cons_self
  have noted : Triple Run.forming (fun _ => True)
      (modify fun s => { s with hostCalls := (h.name, arguments) :: s.hostCalls }) :=
    Triple.modify fun s hs => ⟨⟨hs.hosts, hs.definitions, hs.entries, hs.pending,
      List.forall_mem_cons.2 ⟨good, hs.calls⟩⟩, trivial⟩
  have emptied : Triple Run.forming (fun _ => True) (modify Session.expunge) :=
    Triple.modify fun s hs => ⟨hs.expunge, trivial⟩
  unfold HostFunction.call
  refine noted.bind fun _ _ => ?_
  cases haction : h.action with
  | first => exact Triple.pure first
  | collect => exact Triple.pure (Value.isFormed_list.2 good)
  | expunge => exact emptied.bind fun _ _ => Triple.pure first
  | toggle =>
    rw [haction] at passive
    cases passive
  | fail => exact Triple.fail _
  | compute f =>
    refine Triple.ofExcept fun v hv => ?_
    have transparent := Value.isTransparent_isFormed
    have result := HostAction.computed_matches endowed_faithful f (transparent.lift_items good)
    rw [hv] at result
    cases result with
    | ok lifted => exact transparent.of_lift lifted

def formedContract : Run.Contract where
  toDiscipline := Run.forming
  term := Term.IsFormed
  value := Value.IsFormed
  value_of_term _ h := Term.isFormed_value.1 h
  term_of_part _ h := Term.isFormed_compound.1 h
  list_iff _ := Value.isFormed_list
  atom name _ := by
    refine Primitive.triple_of_sameButTree Run.forming_kept fun s hs => ?_
    obtain ⟨t, same, run⟩ := run_evalAtom name s
    exact ⟨t, _, same, run, fun v hv =>
      hs.atomAnswer Value.isTransparent_isFormed (fun p _ => Value.isFormed_primitive p) hv⟩
  definition _ hs _ _ h := hs.definitions _ (Session.definition?_mem h)
  function _ hs _ _ _ h := hs.function (fun p _ => Value.isFormed_primitive p) h
  cached _ hs _ _ h := hs.cached h
  lambda parts good := by
    have formed (known : List String × Term Value) (h : lambdaParts parts = .ok known) :
        (∀ name ∈ known.1, IsProper name) ∧ known.2.IsFormed :=
      ⟨(lambdaParts_eq_ok h).2, Term.isFormed_compound.1 good _ (mem_of_lambdaParts h)⟩
    refine (Triple.ofExcept formed).bind fun known hknown => ?_
    refine Triple.modifyGet fun s hs => ⟨?_, trivial, Value.isFormed_lambda.2 hknown⟩
    exact ⟨hs.hosts, hs.definitions, hs.entries, hs.pending, hs.calls⟩
  remember key v hv := by
    refine Triple.modify fun s hs => ⟨?_, trivial⟩
    by_cases enabled : s.cache.enabled = true
    · rw [if_pos enabled]
      exact hs.put hv key
    · rw [if_neg enabled]
      exact hs
  body _ _ _ _ hf good := hf.body good
  call _ apply _ hf hm _ good :=
    Primitive.triple_call apply hf hm (Value.isTransparent_isFormed.plain rfl)
      Run.forming_kept (fun _ _ _ hv => Value.isTransparent_isFormed.answer good hv)
      fun _ s hs key name _ => ⟨hs.putKinshipTerm key name, trivial⟩
  host _ _ hh good := hostCall_formed (Value.isFormed_host.1 hh).2 good

theorem formedContract_outlasts : formedContract.Outlasts where
  discard _ hs := hs.discard
  commit _ hs := hs.commit
  settle task _ _ hs hv := hs.settle hv task
  void := Value.isTransparent_isFormed.plain rfl

end KinQuery
