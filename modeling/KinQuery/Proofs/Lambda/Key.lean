import KinQuery.Proofs.Lambda.Embedded
import KinQuery.Proofs.Lambda.Evaluation
import KinQuery.Proofs.Session.Told

/-! Lambdas with the same key.

A key writes out the values that a lambda closes over. Of persons, registered functions and
lambdas it does not tell whether they are closed over or spelled by the body, which makes a
difference where names stand for something else. If such values stand at the same places in two
lambdas with the same key, the lambdas behave the same. -/
namespace KinQuery

open List (Forall₂)

/-- What applying a function comes to, within some depth of evaluation. -/
def Session.applied (s : Session) (f : Function Value) (arguments : List Value) (depth : Nat) :
    Except Halt Value :=
  ((apply depth f arguments).run s).1

/-- Where the second ends within some depth, the first ends within any that is greater by more
than `extra`, and they agree. -/
def Reproduces (extra : Nat) (x y : Nat → Except Halt Value) : Prop :=
  ∀ m n, m + extra < n → y m ≠ .error .tooDeep → Agrees (x n) (y m)

variable {s : Session} {answers arguments : List Value} {serial serial' height : Nat}
  {parameters parameters' : List String} {body other : Term Value}

namespace Session.IsFormed

theorem related (formed : s.IsFormed) (uncached : s.cache.enabled = false) (height : Nat) :
    Related (FunctionLike height) s.definitions s s where
  hosts := rfl
  world := rfl
  lambdas := rfl
  uncached := uncached
  uncached' := uncached
  definitions := rfl
  values := List.forall₂_same.2 fun entry member =>
    ⟨rfl, ValueLike.refl (formed.values.definitions entry member)⟩
  calls := List.forall₂_same.2 fun call member =>
    ⟨rfl, List.forall₂_same.2 fun v hv => ValueLike.refl (formed.values.calls call member v hv)⟩
  proper := formed.proper
  free := formed.apart
  registered h member := Value.isFormed_host.1 (formed.values.hosts h member)

/-- Lambdas with alike bodies come to the same. -/
theorem applied_reproduces (formed : s.IsFormed) (uncached : s.cache.enabled = false)
    (h : TermLike height parameters body other) (good : ∀ v ∈ arguments, v.IsFormed) :
    Reproduces height (s.applied (.lambda serial parameters body) arguments)
      (s.applied (.lambda serial' parameters other) arguments) := by
  intro m n deep finished
  have values : Forall₂ (ValueLike height) arguments arguments :=
    List.forall₂_same.2 fun v hv => ValueLike.refl (good v hv)
  cases m with
  | zero => exact absurd rfl finished
  | succ m =>
    obtain ⟨n, rfl⟩ : ∃ k, n = k + 1 := ⟨n - 1, by omega⟩
    have evaluated := (eval_follows (D := s.definitions) (show m + height < n by omega)).1
    have outcome := apply_lambda_follows serial serial' evaluated h values s s
      (formed.related uncached height)
    exact outcome.agrees functionLike_faithful False.elim fun _ => finished

end Session.IsFormed

/-- The same key makes for the same parameters, and for bodies that are the same once their
values are written out. -/
theorem Value.expand_eq_of_lambda_key
    (formed : (Value.function (.lambda serial parameters body)).IsFormed)
    (formed' : (Value.function (.lambda serial' parameters' other)).IsFormed)
    (legible : body.Obeys .legible) (legible' : other.Obeys .legible)
    (key : (Value.function (.lambda serial parameters body)).key =
      (Value.function (.lambda serial' parameters' other)).key) :
    parameters = parameters' ∧ body.expand = other.expand := by
  have written (serial : Nat) (parameters : List String) (body : Term Value) :
      (Term.value (.function (.lambda serial parameters body))).expand =
        .compound [.atom "lambda", .compound (parameters.map .atom), body.expand] := by
    rw [Term.expand, Value.expand]
  have bare {serial : Nat} {parameters : List String} {body : Term Value}
      (formed : (Value.function (.lambda serial parameters body)).IsFormed)
      (legible : body.Obeys .legible) :
      (Term.value (.function (.lambda serial parameters body))).expand.IsBare := 
    Term.isBare_expand (Term.isFormed_value.2 formed)
      (Term.obeys_value.2 (Value.obeys_lambda.2 ⟨trivial, legible⟩))
  have same := Term.expand_eq_of_key_eq (bare formed legible) (bare formed' legible') key
  rw [written, written] at same
  simp only [Term.compound.injEq, List.cons.injEq, and_true, true_and] at same
  exact ⟨List.map_injective_iff.2 (fun _ _ => Term.atom.inj) same.1, same.2⟩

namespace Session.Told

/-- Two lambdas with the same key, with persons, registered functions and lambdas at the same
places in their bodies, come to the same. Either may need more depth, as much as its own body
spells what the other holds as a value. -/
theorem apply_same_key (told : Told answers s) (uncached : s.cache.enabled = false)
    (first : .function (.lambda serial parameters body) ∈ answers)
    (second : .function (.lambda serial' parameters' other) ∈ answers)
    (key : (Value.function (.lambda serial parameters body)).key =
      (Value.function (.lambda serial' parameters' other)).key)
    (legible : body.Obeys .legible) (legible' : other.Obeys .legible)
    (embedded : body.embedded = other.embedded)
    (free : ∀ name ∈ parameters ++ body.binders ++ other.binders, Primitive.ofName? name = none)
    (good : ∀ v ∈ arguments, v.IsFormed) :
    Reproduces body.height (s.applied (.lambda serial parameters body) arguments)
        (s.applied (.lambda serial' parameters' other) arguments) ∧
      Reproduces other.height (s.applied (.lambda serial' parameters' other) arguments)
        (s.applied (.lambda serial parameters body) arguments) := by
  obtain ⟨formed, values⟩ := told.isFormed
  obtain ⟨rfl, expand⟩ :=
    Value.expand_eq_of_lambda_key (values _ first) (values _ second) legible legible' key
  obtain ⟨proper, formedBody⟩ := Value.isFormed_lambda.1 (values _ first)
  have formedOther := (Value.isFormed_lambda.1 (values _ second)).2
  simp only [List.mem_append, or_imp, forall_and] at free
  have clear : body.IsClear := ⟨formedBody, legible, free.1.2⟩
  have clear' : other.IsClear := ⟨formedOther, legible', free.2⟩
  have apart (w : Value) (word : w.IsWord) : w.key ∉ parameters := fun inside =>
    word.key_ne (proper _ inside) (free.1.1 _ inside) rfl
  have same : body.Concurs other := ⟨expand, embedded⟩
  have forth := TermLike.of_concurs clear clear' apart (Nat.le_refl _) same
  have back := TermLike.of_concurs clear' clear apart (Nat.le_refl _) same.symm
  exact ⟨formed.applied_reproduces uncached forth good,
    formed.applied_reproduces uncached back good⟩

/-- A list that one lambda closes over and the other makes. -/
theorem apply_same_key_pair :
    let one : Value := .numeral ⟨1, by decide, by decide⟩
    let body : Term Value := .compound [.atom "list", .atom "x", .value (.list [one, one])]
    let other : Term Value :=
      .compound [.atom "list", .atom "x", .compound [.atom "list", .atom "1", .atom "1"]]
    let closed : Value := .function (.lambda 1 ["x"] body)
    let spelled : Value := .function (.lambda 2 ["x"] other)
    ∃ s, Told [spelled, closed, .void] s ∧ s.cache.enabled = false ∧ closed.key = spelled.key ∧
      body.Obeys .legible ∧ other.Obeys .legible ∧ body.embedded = other.embedded ∧
      (∀ name ∈ ["x"] ++ body.binders ++ other.binders, Primitive.ofName? name = none) ∧
      (∀ v ∈ [one], v.IsFormed) ∧
      s.applied (.lambda 2 ["x"] other) [one] 4 = .ok (.list [one, .list [one, one]]) ∧
      Agrees (s.applied (.lambda 1 ["x"] body) [one] 6)
        (s.applied (.lambda 2 ["x"] other) [one] 4) ∧
      s.applied (.lambda 1 ["x"] body) [one] 3 = .ok (.list [one, .list [one, one]]) ∧
      Agrees (s.applied (.lambda 2 ["x"] other) [one] 6)
        (s.applied (.lambda 1 ["x"] body) [one] 3) := by
  intro one body other closed spelled
  have define : readQuery "(define p (list 1 1))" = .ok (.compound [.atom "define", .atom "p",
      .compound [.atom "list", .atom "1", .atom "1"]]) := rfl
  have first : readQuery "(lambda (x) (list x p))" = .ok (.compound [.atom "lambda",
      .compound [.atom "x"], .compound [.atom "list", .atom "x", .atom "p"]]) := rfl
  have second : readQuery "(lambda (x) (list x (list 1 1)))" = .ok (.compound [.atom "lambda",
      .compound [.atom "x"], other]) := rfl
  let start : Session := { today := ⟨1970, 1, 31, by decide, by decide, by decide, by decide⟩ }
  let run (query : String) (s : Session) : Session := (s.exec 5 query).2
  let s : Session := run "(lambda (x) (list x (list 1 1)))" (run "(lambda (x) (list x p))"
    (run "(define p (list 1 1))" (start.setCaching false)))
  have told : Told [spelled, closed, .void] s := by
    refine .answer 5 _ ?_ (.answer 5 _ ?_ (.answer 5 _ ?_ (.setCaching false (.start {} {} _))))
    all_goals
      simp only [exec_of_read define, exec_of_read first, exec_of_read second]
      rfl
  have uncached : s.cache.enabled = false := by
    simp only [s, run, exec_of_read define, exec_of_read first, exec_of_read second]
    rfl
  have key : closed.key = spelled.key := by decide +kernel
  have legible : body.Obeys .legible := ⟨trivial, trivial, ⟨trivial, trivial, trivial⟩, trivial⟩
  have legible' : other.Obeys .legible :=
    ⟨trivial, trivial, ⟨trivial, trivial, trivial, trivial⟩, trivial⟩
  have free : ∀ name ∈ ["x"] ++ body.binders ++ other.binders, Primitive.ofName? name = none := by
    decide +kernel
  have good : ∀ v ∈ [one], v.IsFormed := List.forall_mem_singleton.2 trivial
  obtain ⟨forth, back⟩ := apply_same_key told uncached (List.mem_cons_of_mem _ List.mem_cons_self)
    List.mem_cons_self key legible legible' rfl free good
  have ends : s.applied (.lambda 2 ["x"] other) [one] 4 = .ok (.list [one, .list [one, one]]) := by
    simp only [s, run, exec_of_read define, exec_of_read first, exec_of_read second]
    rfl
  have ends' : s.applied (.lambda 1 ["x"] body) [one] 3 = .ok (.list [one, .list [one, one]]) := by
    simp only [s, run, exec_of_read define, exec_of_read first, exec_of_read second]
    rfl
  refine ⟨s, told, uncached, key, legible, legible', rfl, free, good, ends, ?_, ends', ?_⟩
  · exact forth 4 6 (by decide) (by rw [ends]; rintro ⟨⟩)
  · exact back 3 6 (by decide) (by rw [ends']; rintro ⟨⟩)

/-- Two lambdas with one key: the first closes over a lambda, in whose body `x` is unbound; the
second spells that lambda, so that its own parameter binds `x`. -/
theorem apply_same_key_differs :
    let one : Value := .numeral ⟨1, by decide, by decide⟩
    let body : Term Value :=
      .compound [.value (.function (.lambda 1 ["y"] (.atom "x"))), .atom "0"]
    let other : Term Value :=
      .compound [.compound [.atom "lambda", .compound [.atom "y"], .atom "x"], .atom "0"]
    let closed : Value := .function (.lambda 2 ["x"] body)
    let spelled : Value := .function (.lambda 3 ["x"] other)
    ∃ s, Told [spelled, closed, .void] s ∧ s.cache.enabled = false ∧ closed.key = spelled.key ∧
      s.applied (.lambda 2 ["x"] body) [one] 5 = .error (.failed (.unbound "x")) ∧
      s.applied (.lambda 3 ["x"] other) [one] 5 = .ok one := by
  intro one body other closed spelled
  have define : readQuery "(define k (lambda (y) x))" = .ok (.compound [.atom "define", .atom "k",
      .compound [.atom "lambda", .compound [.atom "y"], .atom "x"]]) := rfl
  have first : readQuery "(lambda (x) (k 0))" = .ok (.compound [.atom "lambda",
      .compound [.atom "x"], .compound [.atom "k", .atom "0"]]) := rfl
  have second : readQuery "(lambda (x) ((lambda (y) x) 0))" = .ok (.compound [.atom "lambda",
      .compound [.atom "x"], other]) := rfl
  let start : Session := { today := ⟨1970, 1, 31, by decide, by decide, by decide, by decide⟩ }
  let run (query : String) (s : Session) : Session := (s.exec 5 query).2
  let s : Session := run "(lambda (x) ((lambda (y) x) 0))" (run "(lambda (x) (k 0))"
    (run "(define k (lambda (y) x))" (start.setCaching false)))
  have told : Told [spelled, closed, .void] s := by
    refine .answer 5 _ ?_ (.answer 5 _ ?_ (.answer 5 _ ?_ (.setCaching false (.start {} {} _))))
    all_goals
      simp only [exec_of_read define, exec_of_read first, exec_of_read second]
      rfl
  refine ⟨s, told, ?_, by decide +kernel, ?_⟩
  · simp only [s, run, exec_of_read define, exec_of_read first, exec_of_read second]
    rfl
  · simp only [s, run, exec_of_read define, exec_of_read first, exec_of_read second]
    exact ⟨rfl, rfl⟩

end Session.Told
end KinQuery
