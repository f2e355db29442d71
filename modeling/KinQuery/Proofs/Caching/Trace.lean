import KinQuery.Evaluation.Host
import KinQuery.Proofs.Evaluation.Task
import KinQuery.Proofs.Session.Cache

/-! The events of evaluation that matter to the cache.

The trace of a computation lists the applications that are completed in it, each with its key
and its value, an inner one before the outer one, and whatever else changes the cache. It follows
the steps of evaluation and of what registered functions do.

What registered functions do is given by their programs, and may be anything. When one of them runs
a query while another query is running, both the begin and the end of it are events, since they
drop or commit what the other one has put in so far. -/
namespace KinQuery

variable {α β : Type}

/-- What can happen to a cache. -/
inductive CacheEvent where
  /-- An application came to a value; the key is that of its term. -/
  | completed (key : String) (v : Value)
  | expunged
  | toggled
  /-- A query begins. -/
  | began
  | ended (succeeded : Bool)

namespace CacheEvent

def result? : CacheEvent → Option (String × Value)
  | .completed key v => some (key, v)
  | .expunged | .toggled | .began | .ended _ => none

/-- The cache is emptied, or caching is turned off or on. -/
def isDisturbance : CacheEvent → Bool
  | .expunged | .toggled => true
  | .completed .. | .began | .ended _ => false

def isQuery : CacheEvent → Bool
  | .began | .ended _ => true
  | .completed .. | .expunged | .toggled => false

def isCompletion (event : CacheEvent) : Bool :=
  event.result?.isSome

/-- The keys and values of the applications that are completed, in this order. -/
def results (events : List CacheEvent) : List (String × Value) :=
  events.filterMap result?

/-- What an event does to the cache. -/
def act (c : Cache) : CacheEvent → Cache
  | .completed key v => if c.enabled then c.put key v else c
  | .expunged => c.expunge
  | .toggled => { c with enabled := !c.enabled }
  | .began | .ended false => c.discard
  | .ended true => c.commit

end CacheEvent

/-- What events do to the cache, one after the other. -/
def Cache.replay (c : Cache) (events : List CacheEvent) : Cache :=
  events.foldl CacheEvent.act c

/-! ### Replaying events -/

namespace CacheEvent

theorem results_append (events others : List CacheEvent) :
    results (events ++ others) = results events ++ results others :=
  List.filterMap_append

theorem isCompletion_eq (event : CacheEvent) :
    event.isCompletion = (!event.isDisturbance && !event.isQuery) := by
  cases event <;> rfl

end CacheEvent

namespace Cache
open CacheEvent

theorem replay_append (c : Cache) (events others : List CacheEvent) :
    c.replay (events ++ others) = (c.replay events).replay others :=
  List.foldl_append

/-- With caching on, completions put their results in. -/
theorem replay_completions {events : List CacheEvent} {c : Cache} (enabled : c.enabled = true)
    (completions : events.all isCompletion = true) :
    c.replay events = c.putAll (results events) := by
  induction events generalizing c with
  | nil => rfl
  | cons event events ih =>
    rw [List.all_cons, Bool.and_eq_true] at completions
    cases event with
    | completed key v =>
      have put : act c (.completed key v) = c.put key v := if_pos enabled
      change (act c (.completed key v)).replay events = (c.put key v).putAll (results events)
      rw [put]
      exact ih (by rw [put_enabled, enabled]) completions.2
    | _ => cases completions.1

/-- Events that do not disturb the cache leave it as it is or let more be committed. -/
theorem persists_act (c : Cache) {event : CacheEvent} (quiet : event.isDisturbance = false) :
    c.Persists (act c event) := by
  cases event with
  | completed key v =>
    change c.Persists (if c.enabled then c.put key v else c)
    split
    · exact c.persists_put key v
    · exact .refl c
  | expunged => cases quiet
  | toggled => cases quiet
  | began => exact c.persists_discard
  | ended succeeded =>
    cases succeeded with
    | false => exact c.persists_discard
    | true => exact c.persists_commit

theorem persists_replay {events : List CacheEvent} {c : Cache}
    (quiet : events.any isDisturbance = false) : c.Persists (c.replay events) := by
  induction events generalizing c with
  | nil => exact .refl c
  | cons event events ih =>
    rw [List.any_cons, Bool.or_eq_false_iff] at quiet
    exact (c.persists_act quiet.1).trans (ih quiet.2)

end Cache

/-! ### Traces -/

/-- The events of a computation, by the session in which it starts. -/
abbrev Trace := Session → List CacheEvent

namespace Trace

def silent : Trace :=
  fun _ => []

/-- The events of a computation that goes on with another one if it has a value. -/
def andThen (first : Trace) (m : Run α) (next : α → Trace) : Trace := fun s =>
  first s ++ match m.run s with
    | (.ok a, t) => next a t
    | (.error _, _) => []

/-- The events of a computation that is made for every item of a list. -/
def each (f : α → Run β) (trace : α → Trace) : List α → Trace
  | [] => silent
  | a :: as => andThen (trace a) (f a) fun _ => each f trace as

end Trace

/-! ### The events of evaluation

As with evaluation, the events of a step depend on the evaluation of terms and the application of
functions one level deeper, and on the events of these. -/

section Steps
open Trace

variable (eval : Term Value → Run Value) (apply : Function Value → List Value → Run Value)
  (evalTrace : Term Value → Trace) (applyTrace : Function Value → List Value → Trace)

def filterTrace (f : Function Value) : List Value → Trace
  | [] => silent
  | item :: items =>
    andThen (applyTrace f [item]) (apply f [item]) fun verdict =>
      andThen silent (Run.ofExcept (verdict.asBoolean f.name)) fun _ => filterTrace f items

def callFilterTrace : List Value → Trace
  | [a, b] =>
    andThen silent (Run.ofExcept (a.asFunction Primitive.filter.name)) fun f =>
      andThen silent (Run.ofExcept (b.asList Primitive.filter.name)) fun items =>
        filterTrace apply applyTrace f items
  | _ => silent

def callMapTrace : List Value → Trace
  | [a, b] =>
    andThen silent (Run.ofExcept (a.asFunction Primitive.map.name)) fun f =>
      andThen silent (Run.ofExcept (b.asList Primitive.map.name)) fun items =>
        each (fun item => apply f [item]) (fun item => applyTrace f [item]) items
  | [a, b, c] =>
    andThen silent (Run.ofExcept (a.asFunction Primitive.map.name)) fun f =>
      andThen silent (Run.ofExcept (b.asList Primitive.map.name)) fun first =>
        andThen silent (Run.ofExcept (c.asList Primitive.map.name)) fun second =>
          each (fun (x, y) => apply f [x, y]) (fun (x, y) => applyTrace f [x, y]) (first.zip second)
  | _ => silent

/-- An addition to the dictionary empties the cache if it is made. -/
def putTrace (key name : String) : Trace := fun s =>
  if (s.dictionary.put key name).1 = .ok true then [.expunged] else []

def callPutTrace : List Value → Trace
  | [a, b] =>
    andThen silent (Run.ofExcept (a.asString Primitive.putKinshipTerm.name)) fun key =>
      andThen silent (Run.ofExcept (b.asString Primitive.putKinshipTerm.name)) fun name =>
        putTrace key name
  | _ => silent

def callTrace : Primitive → List Value → Trace
  | .filter => callFilterTrace apply applyTrace
  | .map => callMapTrace apply applyTrace
  | .putKinshipTerm => callPutTrace
  | _ => fun _ => silent

/-- The events of the evaluation that a query asks for. -/
def taskTrace (query : String) : Trace := fun s =>
  match s.task query with
  | .ok task => evalTrace task.term (s.mapCache .discard)
  | .error _ => []

def queryTrace (query : String) : Trace := fun s =>
  .began :: (taskTrace evalTrace query s ++ [.ended (s.execBy eval query).1.isOk])

def requestTrace : Request → Trace
  | .eval t => evalTrace t
  | .apply f arguments => applyTrace f arguments
  | .exec query => queryTrace eval evalTrace query
  | .register _ => silent
  | .tree => silent
  | .edit change => fun s => if (change s.genealogy).isOk then [.expunged] else []
  | .putKinshipTerm key name => putTrace key name
  | .setCaching enabled => fun s => if s.cache.enabled ≠ enabled then [.toggled] else []
  | .expunge => fun _ => [.expunged]

def programTrace : HostProgram → Trace
  | .done _ => silent
  | .look next => fun s => programTrace (next s) s
  | .ask request next =>
    andThen (requestTrace eval evalTrace applyTrace request) (Run.attempt (request.run eval apply))
      fun answer => programTrace (next answer)

def hostTrace (P : Hosting) (h : HostFunction) (arguments : List Value) : Trace :=
  andThen silent (noteCall h arguments) fun _ =>
    programTrace eval apply evalTrace applyTrace (P h arguments)

/-- A name is looked up and not evaluated any further. -/
def resolveTrace : Term Value → Trace
  | .atom _ => silent
  | head => evalTrace head

def applyToTrace (head : Term Value) (arguments : List (Term Value)) : Trace :=
  andThen (resolveTrace evalTrace head) (resolve eval head) fun f =>
    andThen silent (Run.ofExcept (f.checkArity arguments.length)) fun _ =>
      andThen (each eval evalTrace arguments) (arguments.mapM eval) fun values =>
        applyTrace f values

/-- What comes before an application is completed; nothing if it is answered from the cache. -/
def applicationSteps (head : Term Value) (arguments : List (Term Value)) : Trace := fun s =>
  if s.cache.enabled && (s.cache.get? (Term.compound (head :: arguments)).key).isSome then []
  else applyToTrace eval evalTrace applyTrace head arguments s

/-- The event of an application that ended with a value. -/
def completion (key : String) : Except Halt Value → List CacheEvent
  | .ok v => [.completed key v]
  | .error _ => []

/-- An application that begins while caching is off does not go through the cache. -/
def applicationTrace (head : Term Value) (arguments : List (Term Value)) : Trace := fun s =>
  applicationSteps eval evalTrace applyTrace head arguments s ++
    if s.cache.enabled then
      completion (Term.compound (head :: arguments)).key
        ((evalApplication eval apply head arguments).run s).1
    else []

def conditionalTrace (parts : List (Term Value)) : Trace :=
  match parts with
  | [_, condition, yes, no] =>
    andThen (evalTrace condition) (eval condition) fun v =>
      andThen silent (Run.ofExcept (v.asBoolean SpecialForm.conditional.word)) fun b =>
        evalTrace (if b then yes else no)
  | _ => silent

def compoundTrace (parts : List (Term Value)) : Trace :=
  match (Term.compound parts).specialForm? with
  | some .lambda => silent
  | some .conditional => conditionalTrace eval evalTrace parts
  | some .define => silent
  | none =>
    match parts with
    | [] => silent
    | head :: arguments => applicationTrace eval apply evalTrace applyTrace head arguments

end Steps

namespace Hosting

mutual

/-- The events of an evaluation with registered functions that do what their programs say. -/
def evalTrace (P : Hosting) : (depth : Nat) → Term Value → Trace
  | 0, _ => Trace.silent
  | depth + 1, t =>
    match t with
    | .compound parts =>
      compoundTrace (P.workings.eval depth) (P.workings.apply depth) (P.evalTrace depth)
        (P.applyTrace depth) parts
    | _ => Trace.silent

def applyTrace (P : Hosting) : (depth : Nat) → Function Value → List Value → Trace
  | 0, _, _ => Trace.silent
  | depth + 1, f, arguments =>
    Trace.andThen Trace.silent (Run.ofExcept (f.checkArity arguments.length)) fun _ =>
      match f with
      | .primitive p => callTrace (P.workings.apply depth) (P.applyTrace depth) p arguments
      | .host h => hostTrace (P.workings.eval depth) (P.workings.apply depth) (P.evalTrace depth)
        (P.applyTrace depth) P h arguments
      | .lambda _ parameters body =>
        P.evalTrace depth (body.substitute (Bindings.ofList (parameters.zip arguments)))

end

/-- The events of a query. -/
def queryTrace (P : Hosting) (depth : Nat) (query : String) : Trace :=
  KinQuery.queryTrace (P.workings.eval depth) (P.evalTrace depth) query

/-- Some application with this key has this value, in some session. -/
def IsResult (P : Hosting) (result : String × Value) : Prop :=
  ∃ (depth : Nat) (head : Term Value) (arguments : List (Term Value)) (s : Session),
    (Term.compound (head :: arguments)).specialForm? = none ∧
      (Term.compound (head :: arguments)).key = result.1 ∧
        ((P.workings.eval depth (.compound (head :: arguments))).run s).1 = .ok result.2

end Hosting

/-! ### Registered functions that run no queries -/

def Request.isQuery : Request → Bool
  | .exec _ => true
  | _ => false

/-- The program runs no query, whatever it sees and whatever the answers are. -/
def HostProgram.RunsNoQuery : HostProgram → Prop
  | .done _ => True
  | .look next => ∀ s, (next s).RunsNoQuery
  | .ask request next => request.isQuery = false ∧ ∀ answer, (next answer).RunsNoQuery

def Hosting.RunsNoQuery (P : Hosting) : Prop :=
  ∀ h arguments, (P h arguments).RunsNoQuery

end KinQuery
