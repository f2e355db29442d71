import KinQuery.Proofs.Scoping.Query

/-! Substitution has lexical scoping.

A session in which queries are run by substitution and one in which they are run with
environments give the same answers, as far as these are not functions, and call the
registered functions in the same order. One ends where the other does. -/
namespace KinQuery

open List (Forall₂)

/-! ### What happens to sessions -/

/-- A way to run queries, each within some depth of evaluation. -/
abbrev Runner := Nat → String → Session → Except Halt Value × Session

inductive Event where
  | query (depth : Nat) (text : String)
  | register (h : HostFunction)

/-- Whether the name of a registered function is a reference, and the function leaves caching
as it is. -/
def Event.IsPassive : Event → Prop
  | .query _ _ => True
  | .register h => isReference h.name = true ∧ h.action.isPassive = true

namespace Session

def happen (run : Runner) (s : Session) : Event → Except Halt Value × Session
  | .query depth text => run depth text s
  | .register h =>
    match s.register h with
    | .ok t => (.ok .void, t)
    | .error failure => (.error (.failed failure), s)

/-- The answers to events, one after the other, and the session after them. -/
def play (run : Runner) : List Event → Session → List (Except Halt Value) × Session
  | [], s => ([], s)
  | event :: events, s =>
    let (answer, t) := s.happen run event
    let (answers, u) := play run events t
    (answer :: answers, u)

end Session

/-! ### Agreement -/

structure Agreed (x y : List (Except Halt Value) × Session) : Prop where
  answers : Forall₂ Agrees x.1 y.1
  calls : Forall₂
    (fun call other => call.1 = other.1 ∧ Forall₂ (Value.Lift Function.Alike) call.2 other.2)
    x.2.hostCalls y.2.hostCalls

variable {D : Env} {p q : Prop} {s r : Session} {run runIn : Runner} {events : List Event}

/-! ### Registered functions -/

/-- What may be registered in one way may be in the other. -/
theorem Related.register (h : Related (FunctionRel D) D s r) {host : HostFunction}
    (reference : isReference host.name = true) (passive : host.action.isPassive = true)
    (keyword : isKeyword host.name = false) (undefined : s.definition? host.name = none) :
    Related (FunctionRel D) D { s with hosts := s.hosts ++ [host] }
      { r with hosts := r.hosts ++ [host] } := by
  have apart (entry : String × Value) (member : entry ∈ D) : host.name ≠ entry.1 := by
    intro same
    have fresh := List.lookup_eq_none_iff.1 (h.fresh undefined) entry member
    simp [same] at fresh
  refine ⟨?_, h.world, h.lambdas, h.uncached, h.uncached', h.definitions, h.values, h.calls,
    h.proper, ?_, ?_⟩
  · change r.hosts ++ [host] = s.hosts ++ [host]
    rw [h.hosts]
  · intro entry member
    exact Session.function?_register (h.free entry member) (apart entry member)
  · intro other member
    rcases List.mem_append.1 member with old | new
    · exact h.registered other old
    · obtain rfl := List.mem_singleton.1 new
      exact ⟨⟨reference, keyword⟩, passive⟩

theorem Related.happen (h : Related (FunctionRel D) D s r) {event : Event}
    (passive : event.IsPassive)
    (each : ∀ depth text, ∃ D', Outcome (FunctionRel D') D' p q (Value.Lift (FunctionRel D'))
      (run depth text s) (runIn depth text r)) :
    ∃ D', Outcome (FunctionRel D') D' p q (Value.Lift (FunctionRel D')) (s.happen run event)
      (r.happen runIn event) := by
  cases event with
  | query depth text => exact each depth text
  | register host =>
    rw [Session.happen, Session.happen, Session.register, Session.register, h.function?,
      h.isSome_definition?]
    by_cases taken : (isKeyword host.name || (s.function? host.name).isSome ||
        (s.definition? host.name).isSome) = true
    · rw [if_pos taken, if_pos taken]
      exact ⟨D, .failed rfl h⟩
    · rw [if_neg taken, if_neg taken]
      simp only [Bool.or_eq_true, not_or, Bool.not_eq_true, Option.isSome_eq_false_iff,
        Option.isNone_iff_eq_none] at taken
      exact ⟨D, .ok .void (h.register passive.1 passive.2 taken.1.1 taken.2)⟩

/-- What each query keeps, a whole run keeps. -/
theorem Related.play (each : ∀ {D s r}, Related (FunctionRel D) D s r → ∀ depth text,
      ∃ D', Outcome (FunctionRel D') D' p q (Value.Lift (FunctionRel D')) (run depth text s)
        (runIn depth text r))
    (passive : ∀ event ∈ events, event.IsPassive) (h : Related (FunctionRel D) D s r)
    (left : p → .error .tooDeep ∉ (s.play run events).1)
    (right : q → .error .tooDeep ∉ (r.play runIn events).1) :
    Agreed (s.play run events) (r.play runIn events) := by
  induction events generalizing D s r with
  | nil =>
    refine ⟨.nil, h.calls.imp fun _ _ same => ⟨same.1, same.2.imp fun _ _ => ?_⟩⟩
    exact .alike functionRel_faithful
  | cons event events ih =>
    obtain ⟨now, later⟩ := List.forall_mem_cons.1 passive
    obtain ⟨D', outcome⟩ := h.happen now (each h)
    rw [Session.play] at left right ⊢
    rw [Session.play]
    generalize s.happen run event = x at outcome left
    generalize r.happen runIn event = y at outcome right
    cases outcome with
    | ok related h' =>
      obtain ⟨answers, calls⟩ := ih later h' (fun hp hin => left hp (List.mem_cons_of_mem _ hin))
        fun hq hin => right hq (List.mem_cons_of_mem _ hin)
      exact ⟨.cons (.ok (related.alike functionRel_faithful)) answers, calls⟩
    | failed same h' =>
      obtain ⟨answers, calls⟩ := ih later h' (fun hp hin => left hp (List.mem_cons_of_mem _ hin))
        fun hq hin => right hq (List.mem_cons_of_mem _ hin)
      exact ⟨.cons (.failed same) answers, calls⟩
    | left _ allowed => exact absurd List.mem_cons_self (left allowed)
    | right _ allowed => exact absurd List.mem_cons_self (right allowed)

/-! ### Scoping -/

/-- Nothing is registered, defined or called yet, and results are not kept. -/
structure Session.IsNew (s : Session) : Prop where
  hosts : s.hosts = []
  definitions : s.definitions = []
  calls : s.hostCalls = []
  uncached : s.cache.enabled = false

theorem Session.IsNew.related (h : s.IsNew) : Related (FunctionRel []) [] s s where
  hosts := rfl
  world := rfl
  lambdas := rfl
  uncached := h.uncached
  uncached' := h.uncached
  definitions := h.definitions
  values := by
    rw [h.definitions]
    exact .nil
  calls := by
    rw [h.calls]
    exact .nil
  proper := by simp
  free := by simp
  registered := by simp [h.hosts]

def isFinished : Except Halt Value → Bool
  | .error .tooDeep => false
  | _ => true

theorem notMem_of_all_isFinished {answers : List (Except Halt Value)}
    (h : answers.all isFinished = true) : .error .tooDeep ∉ answers := by
  intro member
  cases List.all_eq_true.1 h _ member

/-- Queries that end by substitution end with environments, one step deeper at most, and
agree. Queries that end with environments end by substitution, no deeper, and agree. -/
theorem Session.play_agreed {start : Session} (new : start.IsNew)
    (passive : ∀ event ∈ events, event.IsPassive) :
    (.error .tooDeep ∉ (start.play exec events).1 →
      Agreed (start.play exec events) (start.play (fun depth => execIn (depth + 1)) events)) ∧
    (.error .tooDeep ∉ (start.play execIn events).1 →
      Agreed (start.play exec events) (start.play execIn events)) := by
  constructor
  · intro finished
    refine Related.play (p := True) (q := False) ?_ passive new.related (fun _ => finished)
      False.elim
    exact fun h depth text => exec_simulates h (.inl trivial) (.inr (Nat.lt_succ_self depth)) text
  · intro finished
    refine Related.play (p := False) (q := True) ?_ passive new.related False.elim
      fun _ => finished
    exact fun h depth text => exec_simulates h (.inr (Nat.le_refl depth)) (.inl trivial) text

theorem Session.play_agreed_twice :
    let paired : HostFunction :=
      { name := "paired", arity := .exactly 1,
        action := .compute fun arguments => .ok (.list (arguments ++ arguments)) }
    let start : Session :=
      { cache := { enabled := false }
        today := ⟨1970, 1, 31, by decide, by decide, by decide, by decide⟩ }
    let events : List Event :=
      [.register paired, .query 9 "(define twice (lambda (f x) (f (f x))))",
        .query 9 "(twice paired true)"]
    start.IsNew ∧ (∀ event ∈ events, event.IsPassive) ∧
      (.error .tooDeep ∉ (start.play exec events).1 ∧
        Agreed (start.play exec events) (start.play (fun depth => execIn (depth + 1)) events)) ∧
      .error .tooDeep ∉ (start.play execIn events).1 ∧
        Agreed (start.play exec events) (start.play execIn events) := by
  intro paired start events
  have first : readQuery "(define twice (lambda (f x) (f (f x))))" =
      .ok (.compound [.atom "define", .atom "twice", .compound [.atom "lambda",
        .compound [.atom "f", .atom "x"],
        .compound [.atom "f", .compound [.atom "f", .atom "x"]]]]) := by cbv
  have second : readQuery "(twice paired true)" =
      .ok (.compound [.atom "twice", .atom "paired", .atom "true"]) := by cbv
  have new : start.IsNew := ⟨rfl, rfl, rfl, rfl⟩
  have passive (event : Event) (member : event ∈ events) : event.IsPassive := by
    simp only [events, List.mem_cons, List.not_mem_nil, or_false] at member
    rcases member with rfl | rfl | rfl
    · exact ⟨by decide +kernel, rfl⟩
    · trivial
    · trivial
  have direct : .error .tooDeep ∉ (start.play exec events).1 := by
    refine notMem_of_all_isFinished ?_
    simp only [events, play, happen]
    rw [exec_of_read first, exec_of_read second]
    decide +kernel
  have closed : .error .tooDeep ∉ (start.play execIn events).1 := by
    refine notMem_of_all_isFinished ?_
    simp only [events, play, happen, execIn, taskAsRead, first, second]
    decide +kernel
  obtain ⟨forward, backward⟩ := play_agreed new passive
  exact ⟨new, passive, ⟨direct, forward direct⟩, closed, backward closed⟩

end KinQuery
