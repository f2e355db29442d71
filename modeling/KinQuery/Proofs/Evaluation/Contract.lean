import KinQuery.Proofs.Evaluation.Stages

/-! What evaluation keeps, from what each of its steps keeps.

A conduct adds to a discipline what is known of terms and of values. It says of the steps that
evaluation is made of, and that are no evaluations themselves, that they keep it. A contract
says so of lambdas and of the cache as well. Then evaluation to any depth keeps the contract, and
so does every application. -/
namespace KinQuery

namespace Run

/-- What the steps of evaluation keep, but for those that fill the cache or deal with lambdas. -/
structure Conduct extends Discipline where
  term : Term Value → Prop
  value : Value → Prop
  value_of_term : ∀ v, term (.value v) → value v
  term_of_part : ∀ parts, term (.compound parts) → ∀ part ∈ parts, term part
  list_iff : ∀ items, value (.list items) ↔ ∀ item ∈ items, value item
  atom : ∀ name, term (.atom name) → Triple toDiscipline value (evalAtom name)
  definition : ∀ s, holds s → ∀ name v, s.definition? name = some v → value v
  function : ∀ s, holds s → ∀ name f, term (.atom name) → s.function? name = some f →
    value (.function f)
  /-- Of primitives that call functions nothing is asked. -/
  call : ∀ (p : Primitive) apply arguments, p ≠ .filter → p ≠ .map →
    value (.function (.primitive p)) → (∀ v ∈ arguments, value v) →
      Triple toDiscipline value (p.call apply arguments)
  host : ∀ h arguments, value (.function (.host h)) → (∀ v ∈ arguments, value v) →
    Triple toDiscipline value (h.call arguments)
  cached : ∀ s, holds s → ∀ key v, s.cache.get? key = some v → value v

structure Contract extends Conduct where
  lambda : ∀ parts, term (.compound parts) → Triple toDiscipline value (evalLambda parts)
  remember : ∀ key v, value v → Triple toDiscipline (fun _ => True) (remember key v)
  body : ∀ serial parameters body arguments,
    value (.function (.lambda serial parameters body)) → (∀ v ∈ arguments, value v) →
      term (body.substitute (Bindings.ofList (parameters.zip arguments)))

/-! ### Contracts as stages

A session that was there before is a stage; the later ones are those that it may change into. -/

def Discipline.stages (D : Discipline) : Stages Session where
  later := D.change
  refl := D.refl
  trans := D.trans
  holds s t := D.holds t ∧ D.change s t

/-- A triple is a computation that goes together with itself from every stage. -/
theorem triple_iff_together {α : Type} {D : Discipline} {Q : α → Prop} {m : Run α} :
    Triple D Q m ↔ ∀ s, D.stages.Together s (fun _ => Q) m m := by
  refine ⟨fun triple s t ht => ?_, fun together s hs => ?_⟩
  · obtain ⟨holds, change, value⟩ := triple t ht.1
    exact ⟨rfl, _, D.trans ht.2 change, ⟨holds, D.refl _⟩, value⟩
  · obtain ⟨-, t, before, ⟨holds, after⟩, value⟩ := together s s ⟨hs, D.refl s⟩
    exact ⟨holds, D.trans before after, value⟩

namespace Conduct
variable (C : Conduct) {evaluate : Term Value → Run Value}
  {perform : Function Value → List Value → Run Value}

def staged : StagedConduct Session where
  toStages := C.toDiscipline.stages
  term _ := C.term
  value _ := C.value
  term_later _ h := h
  value_later _ h := h
  value_of_term _ := C.value_of_term
  term_of_part _ := C.term_of_part
  list_iff _ := C.list_iff
  atom s name h := triple_iff_together.1 (C.atom name h) s
  definition _ t ht := C.definition t ht.1
  function _ t ht := C.function t ht.1
  call s p apply arguments hf hm hp good :=
    triple_iff_together.1 (C.call p apply arguments hf hm hp good) s
  host s h arguments hh good := triple_iff_together.1 (C.host h arguments hh good) s
  cached _ t ht := C.cached t ht.1

variable
  (applied : ∀ f arguments, C.value (.function f) → (∀ v ∈ arguments, C.value v) →
    Triple C.toDiscipline C.value (perform f arguments))
include applied

theorem callPrimitive {p : Primitive} (hp : C.value (.function (.primitive p)))
    {arguments : List Value} (good : ∀ v ∈ arguments, C.value v) :
    Triple C.toDiscipline C.value (p.call perform arguments) :=
  triple_iff_together.2 fun _ => C.staged.callPrimitive
    (fun s f arguments hf good => triple_iff_together.1 (applied f arguments hf good) s) hp good

theorem evalCompound {parts : List (Term Value)} (good : C.term (.compound parts))
    (evaluated : ∀ part ∈ parts, Triple C.toDiscipline C.value (evaluate part))
    (lambda : (Term.compound parts).specialForm? = some .lambda →
      Triple C.toDiscipline C.value (evalLambda parts))
    (remember : ∀ v, C.value v → Triple C.toDiscipline (fun _ => True)
      (remember (Term.compound parts).key v)) :
    Triple C.toDiscipline C.value (evalCompound evaluate perform parts) :=
  triple_iff_together.2 fun s => C.staged.evalCompound
    (fun s f arguments hf good => triple_iff_together.1 (applied f arguments hf good) s) good
    (fun s _ part hpart => triple_iff_together.1 (evaluated part hpart) s)
    (fun special => triple_iff_together.1 (lambda special) s)
    fun s v _ hv => triple_iff_together.1 (remember v hv) s

end Conduct

namespace Contract
variable (C : Contract)

def staged : StagedContract Session where
  toStagedConduct := C.toConduct.staged
  lambda s parts good := triple_iff_together.1 (C.lambda parts good) s
  remember s key v hv := triple_iff_together.1 (C.remember key v hv) s
  body _ := C.body

/-! ### Evaluation to any depth -/

theorem eval_and_apply (depth : Nat) :
    (∀ t, C.term t → Triple C.toDiscipline C.value (KinQuery.eval depth t)) ∧
    (∀ f arguments, C.value (.function f) → (∀ v ∈ arguments, C.value v) →
      Triple C.toDiscipline C.value (KinQuery.apply depth f arguments)) := by
  obtain ⟨evaluated, applied⟩ := C.staged.eval_and_apply Workings.own_agreesOn depth
  refine ⟨fun t ht => ?_, fun f arguments hf good => ?_⟩
  · exact triple_iff_together.2 fun s => (evaluated s t ht).right
  · exact triple_iff_together.2 fun s => (applied s f arguments hf good).right

theorem eval {t : Term Value} (ht : C.term t) (depth : Nat) :
    Triple C.toDiscipline C.value (KinQuery.eval depth t) :=
  (C.eval_and_apply depth).1 t ht

end Contract

/-- Two runs are the same wherever the discipline holds. -/
def Agree (D : Discipline) {α : Type} (m n : Run α) : Prop :=
  ∀ s, D.holds s → m.run s = n.run s

end Run

/-- With workings that agree where the contract holds, evaluation and application are as they
are with their own. -/
theorem Workings.Agrees.eval_and_apply (C : Run.Contract) {W : Workings}
    (terms : ∀ t, C.term t) (values : ∀ v, C.value v) (agrees : W.Agrees C.holds) (depth : Nat) :
    (∀ t, Run.Agree C.toDiscipline (W.eval depth t) (KinQuery.eval depth t)) ∧
    ∀ f arguments, Run.Agree C.toDiscipline (W.apply depth f arguments)
      (KinQuery.apply depth f arguments) := by
  have reached (s : Session) (arguments : List Value) (h : C.staged.Reaches s arguments) :
      C.holds s := h.elim fun _ stage => stage.1.1
  obtain ⟨evaluated, applied⟩ := C.staged.eval_and_apply (agrees.on.mono reached) depth
  refine ⟨fun t s hs => ?_, fun f arguments s hs => ?_⟩
  · exact (evaluated s t (terms t) s ⟨hs, C.refl s⟩).1
  · exact (applied s f arguments (values _) (fun v _ => values v) s ⟨hs, C.refl s⟩).1

end KinQuery
