import KinQuery.Proofs.Dictionary.Sorted
import KinQuery.Proofs.Evaluation.Application
import KinQuery.Proofs.Evaluation.LambdaParts
import KinQuery.Proofs.Function.Host

/-! Two evaluations, side by side.

Their values differ in their functions alone, and the functions are in a relation. Computations
simulate each other if, in related sessions, both end with related values or with failures of
one class, and leave related sessions. Either may end too deep where the other does not, as `p`
and `q` allow. -/
namespace KinQuery

open List (Forall₂)

/-- A relation of functions that no step of evaluation can tell apart. Primitives and registered
functions that leave caching as it is are related to themselves. -/
structure Conforms (F : Function Value → Function Value → Prop) : Prop extends Value.Faithful F where
  primitive : ∀ p, F (.primitive p) (.primitive p)
  host : ∀ h : HostFunction, h.action.isPassive = true → F (.host h) (.host h)

/-- Two sessions that differ in their functions alone; the definitions of the second are `D`.
Results are not kept, and registered functions do not turn that on. -/
structure Related (F : Function Value → Function Value → Prop) (D : List (String × Value))
    (s r : Session) : Prop where
  hosts : r.hosts = s.hosts
  world : r.world = s.world
  lambdas : r.lambdas = s.lambdas
  uncached : s.cache.enabled = false
  uncached' : r.cache.enabled = false
  definitions : r.definitions = D
  values : Forall₂ (fun entry other => entry.1 = other.1 ∧ Value.Lift F entry.2 other.2)
    s.definitions D
  calls : Forall₂ (fun call other => call.1 = other.1 ∧ Forall₂ (Value.Lift F) call.2 other.2)
    s.hostCalls r.hostCalls
  proper : ∀ entry ∈ D, IsProper entry.1
  free : ∀ entry ∈ D, s.function? entry.1 = none
  registered : ∀ h ∈ s.hosts, IsProper h.name ∧ h.action.isPassive = true

variable {F : Function Value → Function Value → Prop} {D : List (String × Value)}
  {s r s' r' : Session} {name : String}

theorem lookup_of_forall₂ {R : Value → Value → Prop} {definitions others : List (String × Value)}
    (h : Forall₂ (fun entry other => entry.1 = other.1 ∧ R entry.2 other.2) definitions others)
    (name : String) :
    (definitions.lookup name = none ∧ others.lookup name = none) ∨
      ∃ v w, definitions.lookup name = some v ∧ others.lookup name = some w ∧ R v w := by
  induction h with
  | nil => exact .inl ⟨rfl, rfl⟩
  | @cons entry other definitions others first _ ih =>
    rw [Dictionary.lookup_cons_eq, Dictionary.lookup_cons_eq, ← first.1]
    by_cases same : name = entry.1
    · rw [if_pos same, if_pos same]
      exact .inr ⟨entry.2, other.2, rfl, rfl, first.2⟩
    · rw [if_neg same, if_neg same]
      exact ih

/-- Parameters get related values, or none in both ways. -/
theorem lookup_zip {R : Value → Value → Prop} {parameters : List String} {vs ws : List Value}
    (values : Forall₂ R vs ws) (length : parameters.length = vs.length)
    (name : String) :
    (name ∉ parameters ∧ (parameters.zip vs).lookup name = none ∧
      (parameters.zip ws).lookup name = none) ∨
    (name ∈ parameters ∧ ∃ v w, (parameters.zip vs).lookup name = some v ∧
      (parameters.zip ws).lookup name = some w ∧ R v w) := by
  induction values generalizing parameters with
  | nil =>
    obtain rfl := List.length_eq_zero_iff.1 length
    exact .inl ⟨by simp, rfl, rfl⟩
  | @cons v w vs ws first _ ih =>
    cases parameters with
    | nil => cases length
    | cons parameter parameters =>
      by_cases same : name = parameter
      · subst same
        exact .inr ⟨List.mem_cons_self, v, w, by simp, by simp, first⟩
      · have other : (name == parameter) = false := by simpa using same
        simp only [List.zip_cons_cons, List.lookup_cons, other, List.mem_cons, same, false_or]
        exact ih (Nat.succ.inj length)

mutual

theorem Value.Lift.of_isPlain : ∀ {v : Value}, v.isPlain = true → Value.Lift F v v
  | .list items, h => .list (Value.Lift.of_arePlain (by simpa [Value.isPlain] using h))
  | .function _, h => by simp [Value.isPlain] at h
  | .boolean b, _ => .boolean b
  | .numeral n, _ => .numeral n
  | .string s, _ => .string s
  | .date d, _ => .date d
  | .person p, _ => .person p
  | .void, _ => .void

theorem Value.Lift.of_arePlain : ∀ {items : List Value}, Value.arePlain items = true →
    Forall₂ (Value.Lift F) items items
  | [], _ => .nil
  | item :: items, h => by
    simp only [Value.arePlain, Bool.and_eq_true] at h
    exact .cons (Value.Lift.of_isPlain h.1) (Value.Lift.of_arePlain h.2)

end

namespace Related

theorem function? (h : Related F D s r) (name : String) : r.function? name = s.function? name := by
  unfold Session.function?
  rw [h.hosts]

/-- A name that is defined in one session is defined in the other, by a related value. -/
theorem definition? (h : Related F D s r) (name : String) :
    (s.definition? name = none ∧ r.definition? name = none) ∨
      ∃ v w, s.definition? name = some v ∧ r.definition? name = some w ∧ Value.Lift F v w ∧
        IsProper name ∧ s.function? name = none := by
  unfold Session.definition?
  rw [h.definitions]
  rcases lookup_of_forall₂ h.values name with none | ⟨v, w, some, some', related⟩
  · exact .inl none
  · have member : (name, w) ∈ D := Bindings.mem_of_ofList some'
    exact .inr ⟨v, w, some, some', related, h.proper _ member, h.free _ member⟩

/-- Names of functions are no literals, and such functions are related to themselves. -/
theorem of_function? (h : Related F D s r) (conforms : Conforms F) {f : Function Value}
    (hf : s.function? name = some f) : Kind.recognize name = none ∧ F f f := by
  unfold Session.function? at hf
  split at hf
  · rename_i p hp
    have spelled : p.name = name := by simpa using List.find?_some hp
    cases hf
    exact ⟨spelled ▸ Kind.recognize_primitive p, conforms.primitive p⟩
  · obtain ⟨host, hhost, rfl⟩ := Option.map_eq_some_iff.1 hf
    have spelled : host.name = name := by simpa using List.find?_some hhost
    obtain ⟨⟨reference, free⟩, passive⟩ := h.registered host (List.mem_of_find?_eq_some hhost)
    exact ⟨spelled ▸ Kind.recognize_reference reference free, conforms.host host passive⟩

/-- Atoms stand for related values. -/
theorem atomAnswer (h : Related F D s r) (conforms : Conforms F) (name : String) :
    Matches (Value.Lift F) (atomAnswer s name) (atomAnswer r name) := by
  have tree : r.tree.1 = s.tree.1 := congrArg World.tree h.world
  have today : r.today = s.today := congrArg World.today h.world
  unfold KinQuery.atomAnswer
  rw [h.function?, tree, today]
  split
  · rename_i kind _
    cases hv : literalAnswer kind name s.tree.1 s.today with
    | error failure => exact .error rfl
    | ok v => exact .ok (.of_isPlain (literalAnswer_isPlain hv))
  · split
    · rename_i f hf
      exact .ok (.function (h.of_function? conforms hf).2)
    · rcases h.definition? name with ⟨none, none'⟩ | ⟨v, w, some, some', related, -⟩
      · rw [none, none']
        exact .error rfl
      · rw [some, some']
        exact .ok related

/-- Names that are proper and not those of functions are looked up among the definitions. -/
theorem atomAnswer_of_definition? (h : Related F D s r) {w : Value} (proper : IsProper name)
    (free : s.function? name = none) (defined : r.definition? name = some w) :
    KinQuery.atomAnswer r name = .ok w := by
  rw [KinQuery.atomAnswer, Kind.recognize_reference proper.1 proper.2, h.function?, free, defined]

theorem sameButTree (h : Related F D s r) (hs : s.SameButTree s') (hr : r.SameButTree r') :
    Related F D s' r' := by
  have world : r'.world = s'.world := by
    rw [hr.world, hs.world]
    exact h.world
  rcases hs with rfl | rfl <;> rcases hr with rfl | rfl <;>
    exact ⟨h.hosts, world, h.lambdas, h.uncached, h.uncached', h.definitions, h.values, h.calls,
      h.proper, h.free, h.registered⟩

theorem withDictionary (h : Related F D s r) (dictionary : Dictionary) {cache cache' : Cache}
    (uncached : cache.enabled = false) (uncached' : cache'.enabled = false) :
    Related F D { s with dictionary, cache } { r with dictionary, cache := cache' } := by
  have tree : r.tree.1 = s.tree.1 := congrArg World.tree h.world
  have today : r.today = s.today := congrArg World.today h.world
  refine ⟨h.hosts, ?_, h.lambdas, uncached, uncached', h.definitions, h.values, h.calls, h.proper,
    h.free, h.registered⟩
  change World.mk r.tree.1 dictionary r.today = World.mk s.tree.1 dictionary s.today
  rw [tree, today]

end Related

/-! ### Outcomes -/

variable {α β γ δ : Type} {p q : Prop} {A : α → β → Prop} {B : γ → δ → Prop}

/-- How two runs may end. Only where `p` holds may the first be too deep, and only where `q`
holds the second. -/
inductive Outcome (F : Function Value → Function Value → Prop) (D : List (String × Value))
    (p q : Prop) (A : α → β → Prop) : Except Halt α × Session → Except Halt β × Session → Prop
  | ok {a : α} {b : β} {s r : Session} : A a b → Related F D s r →
      Outcome F D p q A (.ok a, s) (.ok b, r)
  | failed {f g : Failure} {s r : Session} : f.failureClass = g.failureClass → Related F D s r →
      Outcome F D p q A (.error (.failed f), s) (.error (.failed g), r)
  | left {s : Session} (other : Except Halt β × Session) : p →
      Outcome F D p q A (.error .tooDeep, s) other
  | right (other : Except Halt α × Session) {r : Session} : q →
      Outcome F D p q A other (.error .tooDeep, r)

/-! ### Agreement -/

/-- Functions of one name and one arity. -/
def Function.Alike (f g : Function Value) : Prop :=
  f.name = g.name ∧ f.arity = g.arity

/-- Failures of one class, or values that are the same up to functions. -/
inductive Agrees : Except Halt Value → Except Halt Value → Prop
  | ok {v w : Value} : Value.Lift Function.Alike v w → Agrees (.ok v) (.ok w)
  | failed {f g : Failure} : f.failureClass = g.failureClass →
      Agrees (.error (.failed f)) (.error (.failed g))

/-- A value without functions is the same in both ways. -/
theorem Agrees.eq_of_isPlain {v : Value} {answer : Except Halt Value} (h : Agrees (.ok v) answer)
    (plain : v.isPlain = true) : answer = .ok v := by
  cases h with
  | ok related => rw [related.eq_of_isPlain plain]

/-- Where one way has a function the other has one of the same arity. -/
theorem Agrees.function {f : Function Value} {answer : Except Halt Value}
    (h : Agrees (.ok (.function f)) answer) :
    ∃ g, answer = .ok (.function g) ∧ f.arity = g.arity := by
  cases h with
  | ok related =>
    cases related with
    | @function _ g alike => exact ⟨g, rfl, alike.2⟩

theorem Value.Lift.alike {v w : Value} (faithful : Value.Faithful F) (h : Value.Lift F v w) :
    Value.Lift Function.Alike v w :=
  h.mono fun _ _ h => ⟨faithful.name h, faithful.arity h⟩

/-- Where neither run ends too deep, they agree. -/
theorem Outcome.agrees (faithful : Value.Faithful F) {x y : Except Halt Value × Session}
    (h : Outcome F D p q (Value.Lift F) x y) (left : p → x.1 ≠ .error .tooDeep)
    (right : q → y.1 ≠ .error .tooDeep) : Agrees x.1 y.1 := by
  cases h with
  | ok related _ => exact .ok (related.alike faithful)
  | failed same _ => exact .failed same
  | left _ allowed => exact absurd rfl (left allowed)
  | right _ allowed => exact absurd rfl (right allowed)

/-! ### Simulation -/

/-- In related sessions the runs end in one of these ways. -/
def Simulates (F : Function Value → Function Value → Prop) (D : List (String × Value))
    (p q : Prop) (A : α → β → Prop) (m : Run α) (n : Run β) : Prop :=
  ∀ s r, Related F D s r → Outcome F D p q A (m.run s) (n.run r)

namespace Simulates

theorem ofExcept {x : Except Failure α} {y : Except Failure β} (h : Matches A x y) :
    Simulates F D p q A (Run.ofExcept x) (Run.ofExcept y) := by
  intro s r related
  cases h with
  | ok h => exact .ok h related
  | error same => exact .failed same related

theorem pure {a : α} {b : β} (h : A a b) : Simulates F D p q A (Pure.pure a) (Pure.pure b) :=
  ofExcept (.ok h)

theorem fail {f g : Failure} (same : f.failureClass = g.failureClass) :
    Simulates F D p q A (Run.fail f) (Run.fail g) :=
  ofExcept (.error same)

theorem left (allowed : p) (n : Run β) : Simulates F D p q A (throw .tooDeep) n :=
  fun _ _ _ => .left _ allowed

theorem right (allowed : q) (m : Run α) : Simulates F D p q A m (throw .tooDeep) :=
  fun _ _ _ => .right _ allowed

theorem bind {m : Run α} {n : Run β} {f : α → Run γ} {g : β → Run δ}
    (first : Simulates F D p q A m n) (next : ∀ a b, A a b → Simulates F D p q B (f a) (g b)) :
    Simulates F D p q B (m >>= f) (n >>= g) := by
  intro s r related
  have outcome := first s r related
  rw [Run.run_bind, Run.run_bind]
  generalize m.run s = x at outcome
  generalize n.run r = y at outcome
  cases outcome with
  | ok h related => exact next _ _ h _ _ related
  | failed same related => exact .failed same related
  | left _ allowed => exact .left _ allowed
  | right _ allowed => exact .right _ allowed

theorem mapM {f : α → Run γ} {g : β → Run δ} {as : List α} {bs : List β}
    (h : Forall₂ (fun a b => Simulates F D p q B (f a) (g b)) as bs) :
    Simulates F D p q (Forall₂ B) (as.mapM f) (bs.mapM g) := by
  induction h with
  | nil => exact pure .nil
  | cons first _ ih =>
    rw [List.mapM_cons, List.mapM_cons]
    exact first.bind fun c d hcd => ih.bind fun cs ds hrest => pure (.cons hcd hrest)

/-- Computations that only read the session. -/
theorem of_answers {m : Run α} {n : Run β}
    (h : ∀ s r, Related F D s r → ∃ (x : Except Failure α) (y : Except Failure β) (s' r' : Session),
      Matches A x y ∧ s.SameButTree s' ∧ r.SameButTree r' ∧
        m.run s = (x.mapError .failed, s') ∧ n.run r = (y.mapError .failed, r')) :
    Simulates F D p q A m n := by
  intro s r related
  obtain ⟨x, y, s', r', alike, hs, hr, first, second⟩ := h s r related
  have related' := related.sameButTree hs hr
  rw [first, second]
  cases alike with
  | ok h => exact .ok h related'
  | error same => exact .failed same related'

end Simulates

/-- Computations with values. -/
abbrev SimulatesValue (F : Function Value → Function Value → Prop) (D : List (String × Value))
    (p q : Prop) (m n : Run Value) : Prop :=
  Simulates F D p q (Value.Lift F) m n

theorem evalAtom_simulates (conforms : Conforms F) (name : String) :
    SimulatesValue F D p q (evalAtom name) (evalAtom name) := by
  refine .of_answers fun s r related => ?_
  obtain ⟨s', hs, first⟩ := run_evalAtom name s
  obtain ⟨r', hr, second⟩ := run_evalAtom name r
  exact ⟨_, _, s', r', related.atomAnswer conforms name, hs, hr, first, second⟩

/-! ### Functions -/

section Functions
variable {perform performIn : Function Value → List Value → Run Value} {vs ws : List Value}

theorem filterItems_simulates {f g : Function Value}
    (applied : ∀ vs ws, Forall₂ (Value.Lift F) vs ws →
      SimulatesValue F D p q (perform f vs) (performIn g ws))
    {items others : List Value} (h : Forall₂ (Value.Lift F) items others) :
    Simulates F D p q (Forall₂ (Value.Lift F)) (filterItems perform f items)
      (filterItems performIn g others) := by
  induction h with
  | nil => exact .pure .nil
  | cons first _ ih =>
    refine (applied _ _ (.cons first .nil)).bind fun verdict verdict' hv => ?_
    refine Simulates.bind (A := (· = ·)) (.ofExcept ?_) fun keep keep' hk => ?_
    · cases hv <;> first | exact .ok rfl | exact .error rfl
    · subst hk
      refine ih.bind fun kept kept' hkept => .pure ?_
      cases keep with
      | true => exact .cons first hkept
      | false => exact hkept

theorem callFilter_simulates
    (applied : ∀ f g vs ws, F f g → Forall₂ (Value.Lift F) vs ws →
      SimulatesValue F D p q (perform f vs) (performIn g ws))
    (h : Forall₂ (Value.Lift F) vs ws) :
    SimulatesValue F D p q (Primitive.callFilter perform vs)
      (Primitive.callFilter performIn ws) := by
  obtain _ | ⟨ha, _ | ⟨hb, _ | ⟨hc, rest⟩⟩⟩ := h
  · exact .fail rfl
  · exact .fail rfl
  · refine (Simulates.ofExcept (ha.asFunction _)).bind fun f g hf => ?_
    refine (Simulates.ofExcept (hb.asList _)).bind fun items others hi => ?_
    refine (filterItems_simulates (applied f g · · hf) hi).bind fun kept kept' hk => .pure ?_
    exact .list hk
  · exact .fail rfl

theorem forall₂_zip {R : α → β → Prop} {S : γ → δ → Prop} {as : List α} {bs : List β}
    {cs : List γ} {ds : List δ} (h : Forall₂ R as bs) (h' : Forall₂ S cs ds) :
    Forall₂ (fun x y => R x.1 y.1 ∧ S x.2 y.2) (as.zip cs) (bs.zip ds) := by
  induction h generalizing cs ds with
  | nil => exact .nil
  | cons first _ ih =>
    cases h' with
    | nil => exact .nil
    | cons first' rest' => exact .cons ⟨first, first'⟩ (ih rest')

theorem callMap_simulates
    (applied : ∀ f g vs ws, F f g → Forall₂ (Value.Lift F) vs ws →
      SimulatesValue F D p q (perform f vs) (performIn g ws))
    (h : Forall₂ (Value.Lift F) vs ws) :
    SimulatesValue F D p q (Primitive.callMap perform vs) (Primitive.callMap performIn ws) := by
  obtain _ | ⟨ha, _ | ⟨hb, _ | ⟨hc, _ | ⟨hd, rest⟩⟩⟩⟩ := h
  · exact .fail rfl
  · exact .fail rfl
  · refine (Simulates.ofExcept (ha.asFunction _)).bind fun f g hf => ?_
    refine (Simulates.ofExcept (hb.asList _)).bind fun items others hi => ?_
    have each : Forall₂ (fun v w => SimulatesValue F D p q (perform f [v]) (performIn g [w]))
        items others := hi.imp fun v w hvw => applied f g [v] [w] hf (.cons hvw .nil)
    exact (Simulates.mapM each).bind fun mapped mapped' hm => .pure (.list hm)
  · refine (Simulates.ofExcept (ha.asFunction _)).bind fun f g hf => ?_
    refine (Simulates.ofExcept (hb.asList _)).bind fun xs xs' hx => ?_
    refine (Simulates.ofExcept (hc.asList _)).bind fun ys ys' hy => ?_
    have each : Forall₂ (fun a b => SimulatesValue F D p q (perform f [a.1, a.2])
        (performIn g [b.1, b.2])) (xs.zip ys) (xs'.zip ys') := by
      refine (forall₂_zip hx hy).imp fun a b hab => ?_
      exact applied f g [a.1, a.2] [b.1, b.2] hf (.cons hab.1 (.cons hab.2 .nil))
    exact (Simulates.mapM each).bind fun mapped mapped' hm => .pure (.list hm)
  · exact .fail rfl

/-- Additions to the dictionary are the same in both sessions. -/
theorem putKinshipTerm_simulates (key name : String) :
    Simulates F D p q (fun _ _ => True) (Run.change (·.putKinshipTerm key name))
      (Run.change (·.putKinshipTerm key name)) := by
  intro s r h
  have dictionary : r.dictionary = s.dictionary := congrArg World.dictionary h.world
  rw [Run.change, Run.run_bind_ok (Run.run_modifyGet _ s), Run.run_bind_ok (Run.run_modifyGet _ r),
    Session.putKinshipTerm, Session.putKinshipTerm, dictionary]
  rcases s.dictionary.put key name with ⟨_ | _ | _, d⟩
  · exact .failed rfl (h.withDictionary d h.uncached h.uncached')
  · exact .ok trivial (h.withDictionary d h.uncached h.uncached')
  · exact .ok trivial (h.withDictionary d h.uncached h.uncached')

theorem callPut_simulates (h : Forall₂ (Value.Lift F) vs ws) :
    SimulatesValue F D p q (Primitive.callPut vs) (Primitive.callPut ws) := by
  obtain _ | ⟨ha, _ | ⟨hb, _ | ⟨hc, rest⟩⟩⟩ := h
  · exact .fail rfl
  · exact .fail rfl
  · refine (Simulates.ofExcept (ha.asString _)).bind fun key key' hk => ?_
    refine (Simulates.ofExcept (hb.asString _)).bind fun name name' hn => ?_
    subst hk hn
    exact (putKinshipTerm_simulates key name).bind fun _ _ _ => .pure .void
  · exact .fail rfl

theorem call_simulates (faithful : Value.Faithful F) (primitive : Primitive)
    (applied : ∀ f g vs ws, F f g → Forall₂ (Value.Lift F) vs ws →
      SimulatesValue F D p q (perform f vs) (performIn g ws))
    (h : Forall₂ (Value.Lift F) vs ws) :
    SimulatesValue F D p q (primitive.call perform vs) (primitive.call performIn ws) := by
  by_cases hfilter : primitive = .filter
  · subst hfilter
    exact callFilter_simulates applied h
  · by_cases hmap : primitive = .map
    · subst hmap
      exact callMap_simulates applied h
    · by_cases hput : primitive = .putKinshipTerm
      · subst hput
        exact callPut_simulates h
      · have reads : primitive.Reads := ⟨hfilter, hmap, hput⟩
        refine .of_answers fun s r related => ?_
        obtain ⟨s', hs, first⟩ := Primitive.run_call reads perform vs s
        obtain ⟨r', hr, second⟩ := Primitive.run_call reads performIn ws r
        have tree : r.tree.1 = s.tree.1 := congrArg World.tree related.world
        have dictionary : r.dictionary = s.dictionary := congrArg World.dictionary related.world
        have today : r.today = s.today := congrArg World.today related.world
        rw [tree, dictionary, today] at second
        exact ⟨_, _, s', r', primitive.answer_matches (fun _ => faithful) _ _ _ h, hs, hr, first, second⟩

theorem hostCall_simulates (faithful : Value.Faithful F) {h : HostFunction}
    (passive : h.action.isPassive = true) (values : Forall₂ (Value.Lift F) vs ws) :
    SimulatesValue F D p q (h.call vs) (h.call ws) := by
  have noted : Simulates F D p q (fun _ _ => True)
      (modify fun s => { s with hostCalls := (h.name, vs) :: s.hostCalls })
      (modify fun s => { s with hostCalls := (h.name, ws) :: s.hostCalls }) := by
    intro s r related
    refine .ok trivial ⟨related.hosts, related.world, related.lambdas, related.uncached,
      related.uncached', related.definitions, related.values, .cons ⟨rfl, values⟩ related.calls,
      related.proper, related.free, related.registered⟩
  have emptied : Simulates F D p q (fun _ _ => True) (modify Session.expunge)
      (modify Session.expunge) := by
    intro s r related
    refine .ok trivial ⟨related.hosts, related.world, related.lambdas, related.uncached,
      related.uncached', related.definitions, related.values, related.calls, related.proper,
      related.free, related.registered⟩
  have first : Value.Lift F (vs.head?.getD .void) (ws.head?.getD .void) := by
    cases values with
    | nil => exact .void
    | cons first _ => exact first
  unfold HostFunction.call
  refine noted.bind fun _ _ _ => ?_
  cases haction : h.action with
  | first => exact .pure first
  | collect => exact .pure (.list values)
  | expunge => exact emptied.bind fun _ _ _ => .pure first
  | toggle =>
    rw [haction] at passive
    cases passive
  | fail => exact .fail rfl
  | compute f => exact .ofExcept (HostAction.computed_matches faithful f values)

end Functions

/-! ### Heads and special forms -/

section Compounds
variable {evaluate evaluateIn : Term Value → Run Value} {u t : Term Value}

theorem checkArity_simulates {f g : Function Value} (same : f.arity = g.arity) (count : Nat) :
    Simulates F D p q (fun _ _ => f.arity.accepts count = true) (Run.ofExcept (f.checkArity count))
      (Run.ofExcept (g.checkArity count)) := by
  unfold Function.checkArity
  rw [← same]
  by_cases accepted : f.arity.accepts count = true
  · rw [if_pos accepted, if_pos accepted]
    exact .ofExcept (.ok accepted)
  · rw [if_neg accepted, if_neg accepted]
    exact .ofExcept (.error rfl)

theorem evalToFunction_simulates
    (evaluated : SimulatesValue F D p q (evaluate u) (evaluateIn t)) :
    Simulates F D p q F (evalToFunction evaluate u) (evalToFunction evaluateIn t) := by
  refine evaluated.bind fun v w h => ?_
  cases h with
  | function h => exact .pure h
  | _ => exact .fail rfl

theorem evalConditional_simulates {parts others : List (Term Value)}
    (evaluated : Forall₂ (fun u t => SimulatesValue F D p q (evaluate u) (evaluateIn t))
      parts others) :
    SimulatesValue F D p q (evalConditional evaluate parts)
      (evalConditional evaluateIn others) := by
  obtain _ | ⟨_, _ | ⟨condition, _ | ⟨yes, _ | ⟨no, _ | _⟩⟩⟩⟩ := evaluated
  · exact .fail rfl
  · exact .fail rfl
  · exact .fail rfl
  · exact .fail rfl
  · refine condition.bind fun v w h => ?_
    refine Simulates.bind (A := (· = ·)) (.ofExcept ?_) fun b b' hb => ?_
    · cases h <;> first | exact .ok rfl | exact .error rfl
    · subst hb
      cases b with
      | true => exact yes
      | false => exact no
  · exact .fail rfl

/-- Lambdas that are made in both ways, under the same name. -/
theorem makeLambda_simulates {names : List String} {body other : Term Value}
    (h : ∀ serial, F (.lambda serial names body) (.lambda serial names other)) :
    SimulatesValue F D p q
      (modifyGet fun s => (.function (.lambda (s.lambdas + 1) names body),
        { s with lambdas := s.lambdas + 1 }))
      (modifyGet fun s => (.function (.lambda (s.lambdas + 1) names other),
        { s with lambdas := s.lambdas + 1 })) := by
  intro s r related
  have made : F (.lambda (s.lambdas + 1) names body) (.lambda (r.lambdas + 1) names other) := by
    rw [related.lambdas]
    exact h _
  refine .ok (.function made) ⟨related.hosts, related.world, ?_, related.uncached,
    related.uncached', related.definitions, related.values, related.calls, related.proper,
    related.free, related.registered⟩
  change r.lambdas + 1 = s.lambdas + 1
  rw [related.lambdas]

theorem specialForm?_of_define {parts : List (Term Value)}
    (h : parts.head? = some (.atom "define")) :
    (Term.compound parts).specialForm? = some .define := by
  cases parts with
  | nil => cases h
  | cons first parts =>
    obtain rfl := Option.some.inj h
    rfl

theorem Term.head_of_specialForm? {parts : List (Term Value)} {form : SpecialForm}
    (h : (Term.compound parts).specialForm? = some form) :
    parts.head? = some (.atom form.word) := by
  obtain ⟨word, leader, found⟩ := Option.bind_eq_some_iff.1 h
  have spelled : form.word = word := by simpa using List.find?_some found
  cases parts with
  | nil => cases leader
  | cons part parts =>
    cases part with
    | atom name =>
      obtain rfl := Option.some.inj leader
      rw [spelled]
      rfl
    | compound _ => cases leader
    | value _ => cases leader

/-- Lambda terms of which neither makes a function fail in the same way. -/
theorem lambdaParts_matches_of_refused
    {parts others : List (Term Value)}
    {A : List String × Term Value → List String × Term Value → Prop}
    (refused : ∀ known, lambdaParts parts ≠ .ok known)
    (refused' : ∀ known, lambdaParts others ≠ .ok known) :
    Matches A (lambdaParts parts) (lambdaParts others) := by
  cases hparts : lambdaParts parts with
  | ok known => exact absurd hparts (refused known)
  | error failure =>
    cases hothers : lambdaParts others with
    | ok known => exact absurd hothers (refused' known)
    | error failure' =>
      refine .error ?_
      rw [failureClass_of_lambdaParts hparts, failureClass_of_lambdaParts hothers]

/-- A lambda term that has not three parts makes no function. -/
theorem lambdaParts_ne_ok {parts : List (Term Value)}
    (special : (Term.compound parts).specialForm? = some .lambda)
    (notLambda : ∀ parameters body, parts ≠ [.atom "lambda", parameters, body])
    (known : List String × Term Value) : lambdaParts parts ≠ .ok known := by
  intro made
  obtain ⟨⟨leader, rfl⟩, -⟩ := lambdaParts_eq_ok made
  obtain rfl := Option.some.inj (Term.head_of_specialForm? special)
  exact notLambda _ _ rfl

end Compounds
end KinQuery
