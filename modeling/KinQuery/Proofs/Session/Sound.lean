import KinQuery.Proofs.Evaluation.Spelled
import KinQuery.Proofs.Session.Cache

/-! Caches that hold meanings.

Every result that is kept is the meaning of a term with its key. Terms that share a key share
their meaning, so an answer from such a cache is as good as an evaluation, and evaluation to a
sufficient depth yields the meaning of a term whether results are kept or not. -/
namespace KinQuery

open List (Forall₂)

variable {α β : Type} {c s t : Session}
  {applied : Function Value → List Value → Except Failure Value}

namespace Session

/-- A result that was kept for a term: it is the meaning of every plain term with its key. -/
structure IsMeaning (c : Session)
    (applied : Function Value → List Value → Except Failure Value) (entry : String × Value) :
    Prop where
  value : entry.2.IsTameIn c.world
  term : ∃ parts, (Term.compound parts).IsTameIn c.world ∧ (Term.compound parts).key = entry.1
  meaning : ∀ parts, (Term.compound parts).IsPlainFor c → (Term.compound parts).key = entry.1 →
    (Term.compound parts).meaning c applied = .ok entry.2

theorem IsMeaning.of_meaning (hc : c.IsSober) (applies : Applies c.world applied)
    {parts : List (Term Value)} (plain : (Term.compound parts).IsPlainFor c) {v : Value}
    (h : (Term.compound parts).meaning c applied = .ok v) :
    c.IsMeaning applied ((Term.compound parts).key, v) where
  value := (Term.meaning_plain hc applies plain v h).tame
  term := ⟨parts, plain.plainIn.tame, rfl⟩
  meaning others plain' key := by
    have same := Term.expand_eq_of_tame plain.plainIn.tame plain'.plainIn.tame key.symm
    exact Term.meaning_within hc hc (.refl c) applies plain.plainIn plain'.plainIn same v h

theorem Extends.plainFor_within {c' : Session} (more : c.Extends c') :
    (Vocabulary.plainFor c').Within (.plainFor c) where
  atom text h := by
    refine ⟨h.1, fun v hv => ?_⟩
    rw [← more.world]
    exact h.2 v (more.definitions text v hv)
  leaf v h := by
    change v.IsPlainLeaf _ c.world
    rw [← more.world]
    exact h
  lambda := id

theorem Extends.plainFor {c' : Session} {t : Term Value} (more : c.Extends c')
    (plain : t.IsPlainFor c') : t.IsPlainFor c :=
  plain.mono more.plainFor_within

theorem IsMeaning.of_extends {c' : Session} {entry : String × Value}
    (h : c.IsMeaning applied entry) (hc : c.IsSober) (hc' : c'.IsSober) (more : c.Extends c')
    (applies : Applies c.world applied) : c'.IsMeaning applied entry := by
  refine ⟨more.world ▸ h.value, more.world ▸ h.term, fun parts plain key => ?_⟩
  have old := more.plainFor plain
  exact Term.meaning_within hc hc' more applies old.plainIn old.plainIn rfl _ (h.meaning parts old key)

/-- The session shows queries what `c` shows them, and its cache holds meanings alone. -/
structure Sound (c : Session) (applied : Function Value → List Value → Except Failure Value)
    (s : Session) : Prop where
  hosts : s.hosts = c.hosts
  definitions : s.definitions = c.definitions
  world : s.world = c.world
  entries : ∀ entry ∈ s.cache.entries, c.IsMeaning applied entry
  pending : ∀ entry ∈ s.cache.pending, c.IsMeaning applied entry

namespace Sound

/-- What is sound for `c` is sound for itself. -/
theorem self (hs : Sound c applied s) (hc : c.IsSober) (hs' : s.IsSober)
    (applies : Applies c.world applied) : Sound s applied s := by
  have more : c.Extends s := ⟨hs.world, fun name v h => by rwa [Session.definition?, hs.definitions]⟩
  exact ⟨rfl, rfl, rfl, fun entry h => (hs.entries entry h).of_extends hc hs' more applies,
    fun entry h => (hs.pending entry h).of_extends hc hs' more applies⟩

theorem function? (hs : Sound c applied s) (name : String) : s.function? name = c.function? name := by
  unfold Session.function?
  rw [hs.hosts]

theorem definition? (hs : Sound c applied s) (name : String) :
    s.definition? name = c.definition? name := by
  unfold Session.definition?
  rw [hs.definitions]

theorem atomAnswer_eq (hs : Sound c applied s) (name : String) :
    atomAnswer s name = atomAnswer c name := by
  have tree : s.tree.1 = c.tree.1 := congrArg World.tree hs.world
  have today : s.today = c.today := congrArg World.today hs.world
  unfold atomAnswer
  rw [hs.function?, hs.definition?, tree, today]

theorem sameButTree (hs : Sound c applied s) (same : s.SameButTree t) : Sound c applied t := by
  have world : t.world = c.world := same.world.trans hs.world
  rcases same with rfl | rfl
  · exact hs
  · exact ⟨hs.hosts, hs.definitions, world, hs.entries, hs.pending⟩

/-- What is found in the cache is a meaning. -/
theorem isMeaning_of_get? (hs : Sound c applied s) {key : String} {v : Value}
    (h : s.cache.get? key = some v) : c.IsMeaning applied (key, v) := by
  exact (Cache.mem_of_get? h).elim (hs.entries _) (hs.pending _)

theorem put (hs : Sound c applied s) {key : String} {v : Value}
    (h : c.IsMeaning applied (key, v)) : Sound c applied (s.mapCache (·.put key v)) := by
  refine ⟨hs.hosts, hs.definitions, hs.world, ?_, fun entry member => ?_⟩
  · simpa [mapCache] using hs.entries
  · rcases Cache.mem_put_pending member with rfl | member
    · exact h
    · exact hs.pending entry member

theorem discard (hs : Sound c applied s) : Sound c applied (s.mapCache .discard) :=
  ⟨hs.hosts, hs.definitions, hs.world, hs.entries, by simp [mapCache, Cache.discard]⟩

theorem commit (hs : Sound c applied s) : Sound c applied (s.mapCache .commit) := by
  refine ⟨hs.hosts, hs.definitions, hs.world, fun entry h => ?_, by simp [mapCache, Cache.commit]⟩
  exact (Cache.mem_commit h).elim (hs.pending entry) (hs.entries entry)

end Sound
end Session

/-! ### Computations that yield a result -/

/-- In every sound session the computation has this result, and the session stays sound. -/
def Yields (c : Session) (applied : Function Value → List Value → Except Failure Value)
    (m : Run α) (r : Except Failure α) : Prop :=
  ∀ s, Session.Sound c applied s →
    (m.run s).1 = r.mapError .failed ∧ Session.Sound c applied (m.run s).2

namespace Yields

theorem ofExcept (r : Except Failure α) : Yields c applied (Run.ofExcept r) r := by
  intro s hs
  rw [Run.run_ofExcept]
  exact ⟨rfl, hs⟩

theorem pure (a : α) : Yields c applied (Pure.pure a) (.ok a) :=
  ofExcept (.ok a)

theorem fail (failure : Failure) : Yields c applied (Run.fail failure : Run α) (.error failure) :=
  ofExcept (.error failure)

theorem of_settles {m : Run α} {r : Except Failure α} (h : Run.Settles c.world m r) :
    Yields c applied m r := by
  intro s hs
  obtain ⟨t, same, run⟩ := h s hs.world
  rw [run]
  exact ⟨rfl, hs.sameButTree same⟩

theorem bind {m : Run α} {r : Except Failure α} {f : α → Run β} {g : α → Except Failure β}
    (first : Yields c applied m r) (next : ∀ a, r = .ok a → Yields c applied (f a) (g a)) :
    Yields c applied (m >>= f) (r >>= g) := by
  intro s hs
  obtain ⟨result, sound⟩ := first s hs
  rcases hm : m.run s with ⟨q, t⟩
  rw [hm] at result sound
  cases r with
  | error failure =>
    cases result
    rw [Run.run_bind_error hm]
    exact ⟨rfl, sound⟩
  | ok a =>
    cases result
    rw [Run.run_bind_ok hm]
    exact next a rfl t sound

theorem mapM {f : α → Run β} {g : α → Except Failure β} :
    ∀ {as : List α}, (∀ a ∈ as, Yields c applied (f a) (g a)) →
      Yields c applied (as.mapM f) ((as.map g).mapM id)
  | [], _ => by
    rw [List.mapM_nil, List.map_nil, List.mapM_nil]
    exact pure []
  | a :: as, each => by
    obtain ⟨first, rest⟩ := List.forall_mem_cons.1 each
    rw [List.mapM_cons, List.map_cons, List.mapM_cons]
    exact first.bind fun b _ => (mapM rest).bind fun bs _ => pure (b :: bs)

end Yields

/-! ### Evaluation -/

section Evaluation
variable {evaluate : Term Value → Run Value} {perform : Function Value → List Value → Run Value}

theorem evalAtom_yields (name : String) :
    Yields c applied (evalAtom name) (atomAnswer c name) := by
  intro s hs
  obtain ⟨t, same, run⟩ := run_evalAtom name s
  rw [run, hs.atomAnswer_eq]
  exact ⟨rfl, hs.sameButTree same⟩

theorem evalToFunction_yields {head : Term Value} {r : Except Failure Value}
    (evaluated : Yields c applied (evaluate head) r) :
    Yields c applied (evalToFunction evaluate head) (headFunction r) := by
  refine evaluated.bind fun v _ => ?_
  cases v with
  | function f => exact .pure f
  | _ => exact .fail _

theorem resolve_yields (hc : c.IsSober) {head : Term Value}
    (evaluated : Yields c applied (evaluate head) (head.meaning c applied)) :
    Yields c applied (resolve evaluate head) (headFunction (head.meaning c applied)) := by
  unfold resolve
  split
  · rename_i name
    intro s hs
    rw [Run.run_bind_ok (Run.run_get s), hs.definition?, hs.function?]
    split
    · rename_i f hf
      rw [Term.meaning, hc.atomAnswer_of_definition? hf]
      exact ⟨rfl, hs⟩
    · split
      · rename_i f hf
        rw [hc.function?] at hf
        obtain ⟨p, hp, rfl⟩ := Option.map_eq_some_iff.1 hf
        have spelled : p.name = name := by simpa using List.find?_some hp
        rw [Term.meaning, ← spelled, hc.atomAnswer_primitive]
        exact ⟨rfl, hs⟩
      · exact evalToFunction_yields evaluated s hs
  · exact evalToFunction_yields evaluated

theorem applyTo_yields (hc : c.IsSober) (applies : Applies c.world applied) {head : Term Value}
    {arguments : List (Term Value)}
    (plain : ∀ part ∈ head :: arguments, part.IsPlainFor c)
    (evaluated : ∀ part ∈ head :: arguments,
      Yields c applied (evaluate part) (part.meaning c applied))
    (performed : ∀ f values, f.IsPlainIn c.world → (∀ v ∈ values, v.IsPlainIn c.world) →
      Yields c applied (perform f values) (applied f values)) :
    Yields c applied (applyTo evaluate perform head arguments)
      (answerOf applied (head.meaning c applied) (arguments.map (Term.meaning c applied))) := by
  obtain ⟨hhead, harguments⟩ := List.forall_mem_cons.1 plain
  obtain ⟨first, rest⟩ := List.forall_mem_cons.1 evaluated
  have function := headFunction_plain (Term.meaning_plain hc applies hhead)
  have values : Gives (fun values => ∀ v ∈ values, v.IsPlainIn c.world)
      ((arguments.map (Term.meaning c applied)).mapM id) := by
    refine Gives.mapM fun r hr => ?_
    obtain ⟨part, hpart, rfl⟩ := List.mem_map.1 hr
    exact Term.meaning_plain hc applies (harguments part hpart)
  unfold applyTo answerOf
  rw [List.length_map]
  refine (resolve_yields hc first).bind fun f hf => (Yields.ofExcept _).bind fun _ _ => ?_
  refine (Yields.mapM rest).bind fun vs hvs => ?_
  exact performed f vs (function f hf) (values vs hvs)

theorem remember_yields {key : String} {v : Value} (h : c.IsMeaning applied (key, v)) :
    Yields c applied (remember key v) (.ok ()) := by
  intro s hs
  refine ⟨rfl, ?_⟩
  rw [remember, Run.run_modify]
  split
  · exact hs.put h
  · exact hs

/-- An application is answered with its meaning, from the cache as by evaluation. -/
theorem evalApplication_yields (hc : c.IsSober) (applies : Applies c.world applied)
    {head : Term Value} {arguments : List (Term Value)}
    (plain : ∀ part ∈ head :: arguments, part.IsPlainFor c)
    (special : (Term.compound (head :: arguments)).specialForm? = none)
    (evaluated : ∀ part ∈ head :: arguments,
      Yields c applied (evaluate part) (part.meaning c applied))
    (performed : ∀ f values, f.IsPlainIn c.world → (∀ v ∈ values, v.IsPlainIn c.world) →
      Yields c applied (perform f values) (applied f values)) :
    Yields c applied (evalApplication evaluate perform head arguments)
      ((Term.compound (head :: arguments)).meaning c applied) := by
  have hterm : (Term.compound (head :: arguments)).IsPlainFor c := Term.obeys_compound.2 plain
  have known : (Term.compound (head :: arguments)).meaning c applied =
      answerOf applied (head.meaning c applied) (arguments.map (Term.meaning c applied)) := by
    rw [Term.meaning_compound, List.map_cons, combine_application special]
  have computed := applyTo_yields hc applies plain evaluated performed
  rw [← known] at computed
  have kept : Yields c applied (do
      let v ← applyTo evaluate perform head arguments
      remember (Term.compound (head :: arguments)).key v
      return v) ((Term.compound (head :: arguments)).meaning c applied) := by
    rw [← bind_pure ((Term.compound (head :: arguments)).meaning c applied)]
    refine computed.bind fun v hv => ?_
    exact (remember_yields (.of_meaning hc applies hterm hv)).bind fun _ _ => .pure v
  intro s hs
  unfold evalApplication
  rw [Run.run_bind_ok (Run.run_get s)]
  split
  · dsimp only
    split
    · rename_i v hv
      rw [(hs.isMeaning_of_get? hv).meaning _ hterm rfl]
      exact ⟨rfl, hs⟩
    · exact kept s hs
  · exact computed s hs

theorem evalConditional_yields {parts : List (Term Value)}
    (evaluated : ∀ part ∈ parts, Yields c applied (evaluate part) (part.meaning c applied)) :
    Yields c applied (evalConditional evaluate parts)
      (branchOf (parts.map (Term.meaning c applied))) := by
  match parts with
  | [leader, condition, yes, no] =>
    refine (evaluated condition (by simp)).bind fun v _ => ?_
    refine (Yields.ofExcept _).bind fun b _ => ?_
    cases b with
    | true => exact evaluated yes (by simp)
    | false => exact evaluated no (by simp)
  | [] | [_] | [_, _] | [_, _, _] => exact .fail _
  | leader :: condition :: yes :: no :: further :: parts =>
    have count : branchOf ((leader :: condition :: yes :: no :: further :: parts).map
        (Term.meaning c applied)) = .error (.wrongBranchCount (parts.length + 4)) := by
      simp [branchOf]
    rw [count]
    exact .fail _

theorem not_lambda {w : World} {parts : List (Term Value)}
    (tame : (Term.compound parts).IsTameIn w) :
    (Term.compound parts).specialForm? ≠ some .lambda := by
  intro h
  match parts with
  | .atom name :: rest =>
    have word : SpecialForm.lambda.word = name := by simpa using List.find?_some h
    have atom := Term.obeys_atom.1 (Term.obeys_compound.1 tame (.atom name) (by simp))
    exact atom.not_lambda word.symm
  | [] | .compound _ :: _ | .value _ :: _ => cases h

theorem evalCompound_yields (hc : c.IsSober) (applies : Applies c.world applied)
    {parts : List (Term Value)} (plain : (Term.compound parts).IsPlainFor c)
    (evaluated : ∀ part ∈ parts, Yields c applied (evaluate part) (part.meaning c applied))
    (performed : ∀ f values, f.IsPlainIn c.world → (∀ v ∈ values, v.IsPlainIn c.world) →
      Yields c applied (perform f values) (applied f values)) :
    Yields c applied (evalCompound evaluate perform parts)
      ((Term.compound parts).meaning c applied) := by
  cases special : (Term.compound parts).specialForm? with
  | none =>
    unfold evalCompound
    rw [special]
    cases parts with
    | nil =>
      rw [Term.meaning_compound]
      unfold combine
      rw [special]
      exact .fail _
    | cons head arguments =>
      exact evalApplication_yields hc applies (Term.obeys_compound.1 plain) special evaluated
        performed
  | some form =>
    unfold evalCompound
    rw [Term.meaning_compound]
    unfold combine
    rw [special]
    cases form with
    | lambda => exact absurd special (not_lambda plain.plainIn.tame)
    | conditional => exact evalConditional_yields evaluated
    | define => exact .fail _

end Evaluation

/-- Evaluation to a sufficient depth yields the meaning of a term. -/
theorem eval_yields (hc : c.IsSober) (applies : Applies c.world applied) {t : Term Value}
    (plain : t.IsPlainFor c) {depth : Nat} (deep : t.height + 3 ≤ depth) :
    Yields c applied (eval depth t) (t.meaning c applied) := by
  induction t using Term.induction generalizing depth with
  | atom name =>
    obtain ⟨depth, rfl⟩ : ∃ d, depth = d + 1 := ⟨depth - 1, by omega⟩
    rw [eval_atom, Term.meaning]
    exact evalAtom_yields name
  | value v =>
    obtain ⟨depth, rfl⟩ : ∃ d, depth = d + 1 := ⟨depth - 1, by omega⟩
    rw [eval_value, Term.meaning]
    exact .pure v
  | compound parts ih =>
    have positive : 1 ≤ (Term.compound parts).height := by
      rw [Term.height]
      omega
    obtain ⟨depth, rfl⟩ : ∃ d, depth = d + 3 + 1 := ⟨depth - 4, by omega⟩
    rw [eval_compound]
    refine evalCompound_yields hc applies plain (fun part hpart => ?_) fun f values hf hvalues => ?_
    · have below := Term.height_lt hpart
      exact ih part hpart (Term.obeys_compound.1 plain part hpart) (by omega)
    · exact .of_settles (applies.settles f values hf hvalues depth)

end KinQuery
