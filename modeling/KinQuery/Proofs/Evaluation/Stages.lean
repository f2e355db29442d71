import KinQuery.Proofs.Evaluation.Workings

/-! What evaluation keeps while it finds out more.

A computation passes through stages. Something holds of the session at each of them, and what is
known of terms and of values at one is known at all later ones. Two computations go together from
a stage if they run alike in its sessions and lead to a later stage. If the steps of evaluation
keep to the stages, then evaluation to any depth does, and goes together with evaluation by other
workings, if these are its own wherever it gets to them. -/
namespace KinQuery.Run

variable {K α β : Type}

/-- What holds of the session at each stage, and which stages may come later. -/
structure Stages (K : Type) where
  later : K → K → Prop
  refl : ∀ k, later k k
  trans : ∀ {j k l}, later j k → later k l → later j l
  holds : K → Session → Prop

namespace Stages
variable {S : Stages K} {k : K} {Q : K → α → Prop} {R : K → β → Prop}

/-- In sessions of the stage both computations have the same run. It leads to a stage that is not
before this one, where something is known of the value. -/
def Together (S : Stages K) (k : K) (Q : K → α → Prop) (m n : Run α) : Prop :=
  ∀ s, S.holds k s → m.run s = n.run s ∧
    ∃ l, S.later k l ∧ S.holds l (n.run s).2 ∧ ∀ a, (n.run s).1 = .ok a → Q l a

namespace Together

theorem pure {a : α} (ha : Q k a) : S.Together k Q (pure a) (pure a) :=
  fun s hs => ⟨rfl, k, S.refl k, hs, fun b hb => by cases hb; exact ha⟩

theorem throw (halt : Halt) : S.Together k Q (throw halt) (throw halt) :=
  fun s hs => ⟨rfl, k, S.refl k, hs, fun b hb => by cases hb⟩

theorem fail (failure : Failure) : S.Together k Q (fail failure) (fail failure) :=
  throw _

theorem ofExcept {r : Except Failure α} (known : ∀ a, r = .ok a → Q k a) :
    S.Together k Q (ofExcept r) (ofExcept r) := by
  cases r with
  | ok a => exact pure (known a rfl)
  | error failure => exact fail failure

theorem get : S.Together k S.holds get get :=
  fun s hs => ⟨rfl, k, S.refl k, hs, fun t ht => by cases ht; exact hs⟩

theorem modifyGet {f : Session → α × Session}
    (step : ∀ s, S.holds k s → ∃ l, S.later k l ∧ S.holds l (f s).2 ∧ Q l (f s).1) :
    S.Together k Q (modifyGet f) (modifyGet f) := by
  intro s hs
  obtain ⟨l, later, holds, known⟩ := step s hs
  exact ⟨rfl, l, later, holds, fun a ha => by cases ha; exact known⟩

theorem bind {m n : Run α} {f g : α → Run β} (first : S.Together k Q m n)
    (next : ∀ l a, S.later k l → Q l a → S.Together l R (f a) (g a)) :
    S.Together k R (m >>= f) (n >>= g) := by
  intro s hs
  obtain ⟨same, l, later, holds, value⟩ := first s hs
  rw [run_bind, run_bind, same]
  rcases hn : n.run s with ⟨halt | a, t⟩
  · rw [hn] at holds
    exact ⟨rfl, l, later, holds, fun b hb => by cases hb⟩
  · rw [hn] at holds value
    obtain ⟨same', l', later', holds', value'⟩ := next l a later (value a rfl) t holds
    exact ⟨same', l', S.trans later later', holds', value'⟩

theorem mapM (kept : ∀ {k l b}, S.later k l → R k b → R l b) {f g : α → Run β} :
    ∀ {as : List α} {k : K}, (∀ l, S.later k l → ∀ a ∈ as, S.Together l R (f a) (g a)) →
      S.Together k (fun l bs => ∀ b ∈ bs, R l b) (as.mapM f) (as.mapM g)
  | [], k, _ => by
    rw [List.mapM_nil, List.mapM_nil]
    exact pure (by simp)
  | a :: as, k, each => by
    rw [List.mapM_cons, List.mapM_cons]
    refine (each k (S.refl k) a List.mem_cons_self).bind fun l b first hb => ?_
    have rest (l' : K) (second : S.later l l') (a' : α) (ha' : a' ∈ as) :=
      each l' (S.trans first second) a' (List.mem_cons_of_mem a ha')
    refine (mapM kept rest).bind fun l' bs second hbs => ?_
    exact pure (List.forall_mem_cons.2 ⟨kept second hb, hbs⟩)

/-- What runs like the first computation goes together with the second as well. -/
theorem congr {m m' n : Run α} (same : ∀ s, S.holds k s → m'.run s = m.run s)
    (together : S.Together k Q m n) : S.Together k Q m' n :=
  fun s hs => ⟨(same s hs).trans (together s hs).1, (together s hs).2⟩

/-- The second computation goes together with itself. -/
theorem right {m n : Run α} (together : S.Together k Q m n) : S.Together k Q n n :=
  fun s hs => ⟨rfl, (together s hs).2⟩

end Together

/-- Staying at one stage. -/
def still (S : Stages K) (k : K) : Discipline where
  holds := S.holds k
  change _ _ := True
  refl _ := trivial
  trans _ _ := trivial

/-- A computation that stays at the stage goes together with itself. -/
theorem Together.of_still {m : Run α} (triple : Triple (S.still k) (Q k) m) :
    S.Together k Q m m := by
  intro s hs
  obtain ⟨holds, -, value⟩ := triple s hs
  exact ⟨rfl, k, S.refl k, holds, value⟩

end Stages

/-! ### The steps of evaluation -/

/-- What the steps of evaluation keep, but for those that fill the cache or deal with lambdas. -/
structure StagedConduct (K : Type) extends Stages K where
  term : K → Term Value → Prop
  value : K → Value → Prop
  term_later : ∀ {k l t}, later k l → term k t → term l t
  value_later : ∀ {k l v}, later k l → value k v → value l v
  value_of_term : ∀ k v, term k (.value v) → value k v
  term_of_part : ∀ k parts, term k (.compound parts) → ∀ part ∈ parts, term k part
  list_iff : ∀ k items, value k (.list items) ↔ ∀ item ∈ items, value k item
  atom : ∀ k name, term k (.atom name) →
    toStages.Together k value (evalAtom name) (evalAtom name)
  definition : ∀ k s, holds k s → ∀ name v, s.definition? name = some v → value k v
  function : ∀ k s, holds k s → ∀ name f, term k (.atom name) → s.function? name = some f →
    value k (.function f)
  /-- Of primitives that call functions nothing is asked. -/
  call : ∀ k (p : Primitive) apply arguments, p ≠ .filter → p ≠ .map →
    value k (.function (.primitive p)) → (∀ v ∈ arguments, value k v) →
      toStages.Together k value (p.call apply arguments) (p.call apply arguments)
  host : ∀ k h arguments, value k (.function (.host h)) → (∀ v ∈ arguments, value k v) →
    toStages.Together k value (h.call arguments) (h.call arguments)
  cached : ∀ k s, holds k s → ∀ key v, s.cache.get? key = some v → value k v

structure StagedContract (K : Type) extends StagedConduct K where
  lambda : ∀ k parts, term k (.compound parts) →
    toStages.Together k value (evalLambda parts) (evalLambda parts)
  remember : ∀ k key v, value k v →
    toStages.Together k (fun _ _ => True) (remember key v) (remember key v)
  body : ∀ k serial parameters body arguments,
    value k (.function (.lambda serial parameters body)) → (∀ v ∈ arguments, value k v) →
      term k (body.substitute (Bindings.ofList (parameters.zip arguments)))

namespace StagedConduct
variable (C : StagedConduct K) {k : K} {evaluate evaluate' : Term Value → Run Value}
  {perform perform' : Function Value → List Value → Run Value} {arguments : List Value}

abbrev Together (k : K) (Q : K → α → Prop) (m n : Run α) : Prop :=
  C.toStages.Together k Q m n

theorem toList {v : Value} (hv : C.value k v) (operation : String) :
    C.Together k (fun l items => ∀ item ∈ items, C.value l item) (.ofExcept (v.asList operation))
      (.ofExcept (v.asList operation)) := by
  refine .ofExcept fun items h => ?_
  cases v <;> cases h
  exact (C.list_iff k _).1 hv

theorem toFunction {v : Value} (hv : C.value k v) (operation : String) :
    C.Together k (fun l f => C.value l (.function f)) (.ofExcept (v.asFunction operation))
      (.ofExcept (v.asFunction operation)) := by
  refine .ofExcept fun f h => ?_
  cases v <;> cases h
  exact hv

theorem values_later {l : K} (later : C.later k l) (good : ∀ v ∈ arguments, C.value k v) :
    ∀ v ∈ arguments, C.value l v :=
  fun v hv => C.value_later later (good v hv)

/-- A check that tells nothing. -/
theorem checked (r : Except Failure α) :
    C.Together k (fun _ _ => True) (.ofExcept r) (.ofExcept r) :=
  .ofExcept fun _ _ => trivial

/-! ### The primitives that call functions -/

section Primitives
variable
  (applied : ∀ k f arguments, C.value k (.function f) → (∀ v ∈ arguments, C.value k v) →
    C.Together k C.value (perform f arguments) (perform' f arguments))
include applied

theorem filterItems {f : Function Value} : ∀ {items : List Value} {k : K},
    C.value k (.function f) → (∀ item ∈ items, C.value k item) →
      C.Together k (fun l kept => ∀ item ∈ kept, C.value l item) (filterItems perform f items)
        (filterItems perform' f items)
  | [], _, _, _ => .pure (by simp)
  | item :: items, k, hf, good => by
    obtain ⟨first, rest⟩ := List.forall_mem_cons.1 good
    refine (applied k f [item] hf (by simpa using first)).bind fun l verdict called _ => ?_
    refine (C.checked _).bind fun l' kept judged _ => ?_
    have later := C.trans called judged
    refine (filterItems (C.value_later later hf) (C.values_later later rest)).bind
      fun l'' others filtered hothers => .pure ?_
    cases kept with
    | true =>
      exact List.forall_mem_cons.2 ⟨C.value_later (C.trans later filtered) first, hothers⟩
    | false => exact hothers

theorem callFilter (good : ∀ v ∈ arguments, C.value k v) :
    C.Together k C.value (Primitive.callFilter perform arguments)
      (Primitive.callFilter perform' arguments) := by
  unfold Primitive.callFilter
  split
  · rename_i a b
    obtain ⟨ha, hb⟩ : C.value k a ∧ C.value k b := by simpa using good
    refine (C.toFunction ha _).bind fun l f later hf => ?_
    refine (C.toList (C.value_later later hb) _).bind fun l' items later' hi => ?_
    refine (C.filterItems applied (C.value_later later' hf) hi).bind fun l'' kept _ hkept => ?_
    exact .pure ((C.list_iff l'' kept).2 hkept)
  · exact .ofExcept fun _ h => by cases h

/-- Applying a function to one list of arguments after the other. -/
theorem mapArguments {ι : Type} {f : Function Value} {items : List ι} (pass : ι → List Value)
    (hf : C.value k (.function f)) (good : ∀ item ∈ items, ∀ v ∈ pass item, C.value k v) :
    C.Together k C.value
      (do return .list (← items.mapM fun item => perform f (pass item)))
      (do return .list (← items.mapM fun item => perform' f (pass item))) := by
  have each (l : K) (later : C.later k l) (item : ι) (hitem : item ∈ items) :=
    applied l f (pass item) (C.value_later later hf) (C.values_later later (good item hitem))
  refine (Stages.Together.mapM (R := C.value) C.value_later each).bind fun l mapped _ hmapped => ?_
  exact .pure ((C.list_iff l mapped).2 hmapped)

theorem callMap (good : ∀ v ∈ arguments, C.value k v) :
    C.Together k C.value (Primitive.callMap perform arguments)
      (Primitive.callMap perform' arguments) := by
  unfold Primitive.callMap
  split
  · rename_i a b
    obtain ⟨ha, hb⟩ : C.value k a ∧ C.value k b := by simpa using good
    refine (C.toFunction ha _).bind fun l f later hf => ?_
    refine (C.toList (C.value_later later hb) _).bind fun l' items later' hi => ?_
    exact C.mapArguments applied (fun item => [item]) (C.value_later later' hf) (by simpa using hi)
  · rename_i a b c
    obtain ⟨ha, hb, hc⟩ : C.value k a ∧ C.value k b ∧ C.value k c := by simpa using good
    refine (C.toFunction ha _).bind fun l f later hf => ?_
    refine (C.toList (C.value_later later hb) _).bind fun l' items later' hi => ?_
    have hc' := C.value_later (C.trans later later') hc
    refine (C.toList hc' _).bind fun l'' others later'' ho => ?_
    refine C.mapArguments applied (fun pair : Value × Value => [pair.1, pair.2])
      (C.value_later (C.trans later' later'') hf) fun pair hpair => ?_
    have hx := C.value_later later'' (hi pair.1 (List.of_mem_zip hpair).1)
    have hy := ho pair.2 (List.of_mem_zip hpair).2
    simpa using And.intro hx hy
  · exact .ofExcept fun _ h => by cases h

theorem callPrimitive {p : Primitive} (hp : C.value k (.function (.primitive p)))
    (good : ∀ v ∈ arguments, C.value k v) :
    C.Together k C.value (p.call perform arguments) (p.call perform' arguments) := by
  by_cases hf : p = .filter
  · subst hf
    exact C.callFilter applied good
  · by_cases hm : p = .map
    · subst hm
      exact C.callMap applied good
    · have same : p.call perform arguments = p.call perform' arguments := by
        cases p <;> first | rfl | contradiction
      rw [same]
      exact C.call k p perform' arguments hf hm hp good

end Primitives

/-! ### Compounds -/

section Compounds
variable {head : Term Value} {parts : List (Term Value)}

theorem evalToFunction
    (evaluated : C.Together k C.value (evaluate head) (evaluate' head)) :
    C.Together k (fun l f => C.value l (.function f)) (evalToFunction evaluate head)
      (evalToFunction evaluate' head) := by
  refine evaluated.bind fun l v _ hv => ?_
  cases v with
  | function f => exact .pure hv
  | _ => exact .fail _

theorem resolve (good : C.term k head)
    (evaluated : ∀ l, C.later k l → C.Together l C.value (evaluate head) (evaluate' head)) :
    C.Together k (fun l f => C.value l (.function f)) (resolve evaluate head)
      (resolve evaluate' head) := by
  have toFunction (l : K) (later : C.later k l) := C.evalToFunction (evaluated l later)
  cases head with
  | atom name =>
    refine Stages.Together.get.bind fun l t later ht => ?_
    split
    · rename_i f hd
      exact .pure (C.definition l t ht name _ hd)
    · split
      · rename_i f hf
        exact .pure (C.function l t ht name f (C.term_later later good) hf)
      · exact toFunction l later
  | value v => exact toFunction k (C.refl k)
  | compound parts => exact toFunction k (C.refl k)

theorem evalConditional
    (evaluated : ∀ l, C.later k l → ∀ part ∈ parts,
      C.Together l C.value (evaluate part) (evaluate' part)) :
    C.Together k C.value (evalConditional evaluate parts) (evalConditional evaluate' parts) := by
  unfold KinQuery.evalConditional
  split
  · rename_i leader condition yes no
    refine (evaluated k (C.refl k) condition (by simp)).bind fun l v later _ => ?_
    refine (C.checked _).bind fun l' b later' _ => ?_
    have branch := evaluated l' (C.trans later later')
    cases b with
    | true => exact branch yes (by simp)
    | false => exact branch no (by simp)
  · exact .fail _

variable
  (applied : ∀ k f arguments, C.value k (.function f) → (∀ v ∈ arguments, C.value k v) →
    C.Together k C.value (perform f arguments) (perform' f arguments))
include applied

theorem applyTo {arguments : List (Term Value)} (good : C.term k head)
    (evaluated : ∀ l, C.later k l → ∀ part ∈ head :: arguments,
      C.Together l C.value (evaluate part) (evaluate' part)) :
    C.Together k C.value (applyTo evaluate perform head arguments)
      (applyTo evaluate' perform' head arguments) := by
  have first (l : K) (later : C.later k l) := evaluated l later head List.mem_cons_self
  refine (C.resolve good first).bind fun l f resolved hf => ?_
  refine (C.checked _).bind fun l' _ counted _ => ?_
  have later := C.trans resolved counted
  have rest (j : K) (later' : C.later l' j) (part : Term Value) (hpart : part ∈ arguments) :=
    evaluated j (C.trans later later') part (List.mem_cons_of_mem head hpart)
  refine (Stages.Together.mapM (R := C.value) C.value_later rest).bind
    fun j values mapped hvalues => ?_
  exact applied j f values (C.value_later (C.trans counted mapped) hf) hvalues

theorem evalApplication {arguments : List (Term Value)} (good : C.term k head)
    (evaluated : ∀ l, C.later k l → ∀ part ∈ head :: arguments,
      C.Together l C.value (evaluate part) (evaluate' part))
    (remember : ∀ l v, C.later k l → C.value l v → C.Together l (fun _ _ => True)
      (remember (Term.compound (head :: arguments)).key v)
      (remember (Term.compound (head :: arguments)).key v)) :
    C.Together k C.value (evalApplication evaluate perform head arguments)
      (evalApplication evaluate' perform' head arguments) := by
  refine Stages.Together.get.bind fun l t later ht => ?_
  have result := C.applyTo applied (C.term_later later good)
    fun l' later' => evaluated l' (C.trans later later')
  split
  · dsimp only
    split
    · rename_i v hv
      exact .pure (C.cached l t ht _ v hv)
    · refine result.bind fun l' v applied hv => ?_
      refine (remember l' v (C.trans later applied) hv).bind fun l'' _ kept _ => ?_
      exact .pure (C.value_later kept hv)
  · exact result

theorem evalCompound (good : C.term k (.compound parts))
    (evaluated : ∀ l, C.later k l → ∀ part ∈ parts,
      C.Together l C.value (evaluate part) (evaluate' part))
    (lambda : (Term.compound parts).specialForm? = some .lambda →
      C.Together k C.value (evalLambda parts) (evalLambda parts))
    (remember : ∀ l v, C.later k l → C.value l v → C.Together l (fun _ _ => True)
      (remember (Term.compound parts).key v) (remember (Term.compound parts).key v)) :
    C.Together k C.value (evalCompound evaluate perform parts)
      (evalCompound evaluate' perform' parts) := by
  unfold KinQuery.evalCompound
  split
  · rename_i special
    exact lambda special
  · exact C.evalConditional evaluated
  · exact .fail _
  · cases parts with
    | nil => exact .fail _
    | cons head arguments =>
      have first := C.term_of_part k _ good head List.mem_cons_self
      exact C.evalApplication applied first evaluated remember

end Compounds
end StagedConduct

/-! ### Evaluation to any depth -/

namespace StagedContract
variable (C : StagedContract K)

/-- What is known wherever evaluation gets to workings: the session is one of a stage at which the
arguments are known. -/
def Reaches (s : Session) (arguments : List Value) : Prop :=
  ∃ k, C.holds k s ∧ ∀ v ∈ arguments, C.value k v

theorem eval_and_apply {W : Workings} (agrees : W.AgreesOn C.Reaches) (depth : Nat) :
    (∀ k t, C.term k t → C.Together k C.value (W.eval depth t) (KinQuery.eval depth t)) ∧
    (∀ k f arguments, C.value k (.function f) → (∀ v ∈ arguments, C.value k v) →
      C.Together k C.value (W.apply depth f arguments) (KinQuery.apply depth f arguments)) := by
  induction depth with
  | zero => exact ⟨fun k t _ => .throw _, fun k f arguments _ _ => .throw _⟩
  | succ depth ih =>
    obtain ⟨evaluated, applied⟩ := ih
    constructor
    · intro k t ht
      cases t with
      | value v => exact .pure (C.value_of_term k v ht)
      | atom name =>
        refine (C.atom k name ht).congr fun s hs => ?_
        exact Workings.run_evalAtom agrees ⟨k, hs, by simp⟩ name
      | compound parts =>
        refine C.evalCompound applied ht (fun l later part hpart => ?_)
          (fun _ => C.lambda k parts ht) fun l v _ hv => C.remember l _ v hv
        exact evaluated l part (C.term_of_part l parts (C.term_later later ht) part hpart)
    · intro k f arguments hf good
      have counted (count : Unit) (h : f.checkArity arguments.length = .ok count) :
          f.arity.accepts arguments.length = true := by
        unfold Function.checkArity at h
        split at h
        · assumption
        · cases h
      refine Stages.Together.bind (Q := fun _ _ => f.arity.accepts arguments.length = true)
        (.ofExcept counted) fun l _ later accepts => ?_
      have hf := C.value_later later hf
      have good := C.values_later later good
      cases f with
      | primitive p =>
        refine (C.callPrimitive applied hf good).congr fun s hs => ?_
        exact agrees.call (W.apply depth) p arguments s ⟨l, hs, good⟩ accepts
      | host h =>
        refine (C.host l h arguments hf good).congr fun s hs => ?_
        exact agrees.host (W.eval depth) (W.apply depth) h arguments s ⟨l, hs, good⟩
      | lambda serial parameters body =>
        exact evaluated l _ (C.body l serial parameters body arguments hf good)

end StagedContract
end KinQuery.Run
