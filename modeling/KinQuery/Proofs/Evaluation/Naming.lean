import KinQuery.Proofs.Evaluation.Contract
import KinQuery.Proofs.Evaluation.Primitives

/-! What evaluation does to a session, whatever the terms and values are.

Each step may remember the family tree, or it touches neither names nor the genealogy. In
particular evaluation names nothing: it neither registers functions nor makes definitions. -/
namespace KinQuery

variable {s t u : Session}

namespace Session

/-- Functions are registered and values defined under the same names. -/
structure SameNames (s t : Session) : Prop where
  hosts : t.hosts = s.hosts
  definitions : t.definitions = s.definitions

theorem SameNames.trans (first : SameNames s t) (second : SameNames t u) : SameNames s u :=
  ⟨second.hosts.trans first.hosts, second.definitions.trans first.definitions⟩

theorem SameButTree.sameNames (h : s.SameButTree t) : SameNames s t := by
  rcases h with rfl | rfl
  · exact ⟨rfl, rfl⟩
  · exact ⟨rfl, rfl⟩

/-- Names and the genealogy are as they were. -/
structure SameWorld (s t : Session) : Prop extends SameNames s t where
  genealogy : t.genealogy = s.genealogy

theorem putKinshipTerm_sameWorld (s : Session) (key name : String) :
    SameWorld s (s.putKinshipTerm key name).2 := by
  rw [putKinshipTerm_eq]
  exact ⟨⟨rfl, rfl⟩, rfl⟩

theorem putKinshipTerm_sameNames (s : Session) (key name : String) :
    SameNames s (s.putKinshipTerm key name).2 :=
  (s.putKinshipTerm_sameWorld key name).toSameNames

/-- A name that a new function does not bear is the name of none. -/
theorem function?_register {host : HostFunction} {name : String}
    (h : s.function? name = none) (other : host.name ≠ name) :
    Session.function? { s with hosts := s.hosts ++ [host] } name = none := by
  unfold function? at h ⊢
  split at h
  · cases h
  · have absent := Option.map_eq_none_iff.1 h
    simp [List.find?_append, absent, other]

end Session

namespace Run

/-! ### Contracts about change alone -/

section
variable {D : Discipline} (tree : ∀ s t, D.holds s → s.SameButTree t → D.holds t ∧ D.change s t)
  (aside : ∀ s t, D.holds s → s.SameWorld t → D.holds t ∧ D.change s t)

include aside

theorem modify_aside {f : Session → Session} (same : ∀ s : Session, s.SameWorld (f s)) :
    Triple D (fun _ => True) (modify f) :=
  Triple.modify fun s hs => aside s (f s) hs (same s)

theorem hostCall_aside (h : HostFunction) (arguments : List Value) :
    Triple D (fun _ => True) (h.call arguments) := by
  unfold HostFunction.call
  have noted : Triple D (fun _ => True)
      (modify fun s => { s with hostCalls := (h.name, arguments) :: s.hostCalls }) :=
    modify_aside aside fun s => ⟨⟨rfl, rfl⟩, rfl⟩
  have emptied : Triple D (fun _ => True) (modify Session.expunge) :=
    modify_aside aside fun s => ⟨⟨rfl, rfl⟩, rfl⟩
  have toggled : Triple D (fun _ => True) (modify fun s => s.setCaching (!s.cache.enabled)) :=
    modify_aside aside fun s => ⟨⟨rfl, rfl⟩, rfl⟩
  refine noted.bind fun _ _ => ?_
  cases h.action with
  | first => exact Triple.pure trivial
  | collect => exact Triple.pure trivial
  | expunge => exact emptied.bind fun _ _ => Triple.pure trivial
  | toggle => exact toggled.bind fun _ _ => Triple.pure trivial
  | fail => exact Triple.fail _
  | compute f => exact Triple.ofExcept fun _ _ => trivial

include tree

/-- A contract that asks nothing of terms and values, but only how sessions change. -/
def Contract.ofChange : Contract where
  toDiscipline := D
  term _ := True
  value _ := True
  value_of_term _ _ := trivial
  term_of_part _ _ _ _ := trivial
  list_iff _ := by simp
  atom name _ := by
    refine Primitive.triple_of_sameButTree tree fun s _ => ?_
    obtain ⟨t, same, run⟩ := run_evalAtom name s
    exact ⟨t, _, same, run, fun _ _ => trivial⟩
  definition _ _ _ _ _ := trivial
  function _ _ _ _ _ _ := trivial
  lambda parts _ := by
    refine (Triple.ofExcept (Q := fun _ => True) fun _ _ => trivial).bind fun known _ => ?_
    refine Triple.modifyGet fun s hs => ?_
    obtain ⟨holds, change⟩ := aside s { s with lambdas := s.lambdas + 1 } hs ⟨⟨rfl, rfl⟩, rfl⟩
    exact ⟨holds, change, trivial⟩
  cached _ _ _ _ _ := trivial
  remember key v _ := by
    refine modify_aside aside fun s => ?_
    by_cases enabled : s.cache.enabled = true
    · rw [if_pos enabled]
      exact ⟨⟨rfl, rfl⟩, rfl⟩
    · rw [if_neg enabled]
      exact ⟨⟨rfl, rfl⟩, rfl⟩
  body _ _ _ _ _ _ := trivial
  call _ apply _ hf hm _ _ :=
    Primitive.triple_call apply hf hm trivial tree (fun _ _ _ _ => trivial)
      fun _ s hs key name _ => aside s _ hs (s.putKinshipTerm_sameWorld key name)
  host h arguments _ _ := hostCall_aside aside h arguments

end

/-! ### Names -/

/-- All that is asked is that names stay as they are. -/
def naming : Discipline where
  holds _ := True
  change := Session.SameNames
  refl _ := ⟨rfl, rfl⟩
  trans := Session.SameNames.trans

def namingContract : Contract :=
  .ofChange (D := naming) (fun _ _ _ same => ⟨trivial, same.sameNames⟩)
    fun _ _ _ same => ⟨trivial, same.toSameNames⟩

end Run

/-- Whatever evaluation ends with, it has named nothing. -/
theorem eval_sameNames (depth : Nat) (t : Term Value) (s : Session) :
    s.SameNames ((eval depth t).run s).2 :=
  (Run.namingContract.eval (t := t) trivial depth s trivial).2.1

end KinQuery
