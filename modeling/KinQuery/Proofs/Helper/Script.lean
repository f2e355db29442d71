import KinQuery.Proofs.Session.Definition
import KinQuery.Proofs.Session.Naming
import KinQuery.Resource

/-! The script of helper functions, query by query.

Each of its queries defines a lambda. The names that are defined before are put in place in its
body, so a helper that uses an earlier one holds it as a value, while one that uses itself or a
later one looks it up by name. -/
namespace KinQuery

open List (Forall₂)

/-- A lambda to be defined, as it is read. -/
structure Helper where
  name : String
  parameters : List String
  body : Term Value

namespace Helper

def lambda (h : Helper) : Term Value :=
  .compound [.atom SpecialForm.lambda.word, .compound (h.parameters.map .atom), h.body]

def term (h : Helper) : Term Value :=
  Term.definition h.name h.lambda

/-- The function that the helper becomes, with some names put in place. -/
def function (h : Helper) (serial : Nat) (bindings : Bindings Value) : Value :=
  .function (.lambda serial h.parameters (h.body.substitute (bindings.hide h.parameters)))

/-- The name is one for definitions, and the parameters are ones for lambdas. -/
structure IsSound (h : Helper) : Prop where
  proper : IsProper h.name
  free : Primitive.ofName? h.name = none
  declared : declareParameters [] (h.parameters.map .atom) = .ok h.parameters

end Helper

namespace Session
variable {s : Session} {h : Helper} {helpers : List Helper} {query : String}
  {queries : List String}

/-- The session in which the helper is defined. -/
def adopt (s : Session) (h : Helper) : Session :=
  { s with
    definitions := (h.name, h.function (s.lambdas + 1) s.bindings) :: s.definitions
    lambdas := s.lambdas + 1 }

theorem run_eval_helper
    (declared : declareParameters [] (h.parameters.map .atom) = .ok h.parameters)
    (bindings : Bindings Value) (depth : Nat) (s : Session) :
    (eval (depth + 1) (h.lambda.substitute bindings)).run s =
      (.ok (h.function (s.lambdas + 1) bindings), { s with lambdas := s.lambdas + 1 }) := by
  have parts (body : Term Value) :
      lambdaParts [.atom SpecialForm.lambda.word, .compound (h.parameters.map .atom), body] =
        .ok (h.parameters, body) := by
    rw [lambdaParts, declared]
    rfl
  have inside : h.lambda.substitute bindings = .compound [.atom SpecialForm.lambda.word,
      .compound (h.parameters.map .atom), h.body.substitute (bindings.hide h.parameters)] := by
    rw [Helper.lambda]
    change Term.substitute _ (.compound [.atom "lambda", _, _]) = _
    rw [Term.substitute_lambda, Term.declared_atoms]
    rfl
  rw [inside]
  change (evalLambda _).run s = _
  rw [evalLambda, parts]
  rfl

theorem mapCache_settled (settled : s.cache.pending = []) :
    (s.mapCache .discard).mapCache .commit = s := by
  obtain ⟨hosts, definitions, ⟨entries, pending, enabled⟩, genealogy, dictionary, today, lambdas,
    calls⟩ := s
  cases settled
  rfl

theorem exec_helper (read : readQuery query = .ok h.term) (sound : h.IsSound) (hosts : s.hosts = [])
    (undefined : s.definition? h.name = none) (settled : s.cache.pending = []) (depth : Nat) :
    s.exec (depth + 1) query = (.ok .void, s.adopt h) := by
  have function : s.function? h.name = none := by
    rw [function?, sound.free, hosts]
    rfl
  have free : checkUndefined s h.name = .ok () := by
    rw [checkUndefined, sound.proper.2, function, undefined]
    rfl
  rw [exec_definition read sound.proper.1 free (run_eval_helper sound.declared _ depth _)]
  exact congrArg (fun t : Session => (Except.ok Value.void, t.adopt h)) (mapCache_settled settled)

/-- Helpers with names of their own are all defined, in order. -/
theorem execAll_helpers
    (read : Forall₂ (fun query h => readQuery query = .ok h.term) queries helpers)
    (sound : ∀ h ∈ helpers, h.IsSound) (distinct : (helpers.map (·.name)).Nodup)
    (hosts : s.hosts = []) (undefined : ∀ h ∈ helpers, s.definition? h.name = none)
    (settled : s.cache.pending = []) (depth : Nat) :
    s.execAll (depth + 1) queries = (.ok (), helpers.foldl adopt s) := by
  induction read generalizing s with
  | nil => rfl
  | @cons query h queries helpers first _ ih =>
    obtain ⟨sound, sounds⟩ := List.forall_mem_cons.1 sound
    obtain ⟨new, others⟩ := List.forall_mem_cons.1 undefined
    obtain ⟨apart, distinct⟩ := List.nodup_cons.1 distinct
    rw [execAll, exec_helper first sound hosts new settled]
    refine ih sounds distinct hosts (fun other member => ?_) settled
    have different : other.name ≠ h.name := fun same =>
      apart (List.mem_map.2 ⟨other, member, same⟩)
    rw [definition?, adopt, List.lookup_cons, beq_false_of_ne different]
    exact others other member

end Session

/-! ### The script -/

namespace Helper

/-- `(= (mod n 2) 0)` -/
def evenBody : Term Value :=
  .compound [.atom "=", .compound [.atom "mod", .atom "n", .atom "2"], .atom "0"]

def even : Helper :=
  ⟨"even?", ["n"], evenBody⟩

def odd : Helper :=
  ⟨"odd?", ["n"], .compound [.atom "not", .compound [.atom "even?", .atom "n"]]⟩

/-- `(if (< n 0) vacant (append (first-n (- n 1)) n))` -/
def firstBody : Term Value :=
  .compound [.atom "if", .compound [.atom "<", .atom "n", .atom "0"], .atom "vacant",
    .compound [.atom "append",
      .compound [.atom "first-n", .compound [.atom "-", .atom "n", .atom "1"]], .atom "n"]]

def first : Helper :=
  ⟨"first-n", ["n"], firstBody⟩

/-- All helpers of the script, in the order of their definitions. -/
def all : List Helper :=
  [⟨"inc", ["n"], .compound [.atom "+", .atom "n", .atom "1"]⟩,
    ⟨"dec", ["n"], .compound [.atom "-", .atom "n", .atom "1"]⟩,
    ⟨"square", ["n"], .compound [.atom "*", .atom "n", .atom "n"]⟩,
    ⟨"double", ["n"], .compound [.atom "*", .atom "n", .atom "2"]⟩,
    even, odd, first,
    ⟨"id", ["x"], .atom "x"⟩,
    ⟨"twice", ["f", "x"], .compound [.atom "f", .compound [.atom "f", .atom "x"]]⟩,
    ⟨"compose", ["f", "g"], .compound [.atom "lambda", .compound [.atom "x"],
      .compound [.atom "f", .compound [.atom "g", .atom "x"]]]⟩,
    ⟨"apply", ["f", "x"], .compound [.atom "f", .atom "x"]⟩,
    ⟨"implies", ["p", "q"],
      .compound [.atom "or", .compound [.atom "not", .atom "p"], .atom "q"]⟩]

/-- The queries of the script. -/
def queries : List String :=
  ["(define inc (lambda (n) (+ n 1)))", "(define dec (lambda (n) (- n 1)))",
    "(define square (lambda (n) (* n n)))", "(define double (lambda (n) (* n 2)))",
    "(define even? (lambda (n) (= (mod n 2) 0)))", "(define odd? (lambda (n) (not (even? n))))",
    "(define first-n (lambda (n) (if (< n 0) vacant (append (first-n (- n 1)) n))))",
    "(define id (lambda (x) x))", "(define twice (lambda (f x) (f (f x))))",
    "(define compose (lambda (f g) (lambda (x) (f (g x)))))",
    "(define apply (lambda (f x) (f x)))", "(define implies (lambda (p q) (or (not p) q)))"]

set_option maxRecDepth 20000 in
theorem splitTerms_helperScript : Text.splitTerms Resource.helperScript = .ok queries := by
  -- The script is taken as a list of characters at once; reading it off the string is slow.
  obtain ⟨cs, spelled, split⟩ : ∃ cs, Resource.helperScript = .ofList cs ∧
      (Text.splitInside 0 [] .text cs).map (·.map .ofList) = .ok queries := ⟨_, rfl, rfl⟩
  rw [Text.splitTerms, spelled, String.toList_ofList, split]

set_option maxRecDepth 20000 in
theorem readQuery_queries : Forall₂ (fun query h => readQuery query = .ok h.term) queries all := by
  have read {query : String} {cs : List Char} {t : Term Value} (spelled : query = .ofList cs)
      (balanced : Text.isBalanced cs = true)
      (parsed : Term.readInside [] (.ofText (Text.clip cs)) = .ok t) : readQuery query = .ok t := by
    rw [readQuery, Term.parse, spelled, String.toList_ofList, balanced, String.toList_ofList,
      parsed]
    rfl
  simp only [queries, all, List.forall₂_cons, List.forall₂_nil_left_iff, and_true]
  refine ⟨?_, ?_, ?_, ?_, ?_, ?_, ?_, ?_, ?_, ?_, ?_, ?_⟩ <;>
    exact read rfl (by decide +kernel) rfl

theorem isSound_all : ∀ h ∈ all, h.IsSound := by
  simp only [all, List.forall_mem_cons]
  refine ⟨?_, ?_, ?_, ?_, ?_, ?_, ?_, ?_, ?_, ?_, ?_, ?_, by simp⟩ <;>
    exact ⟨⟨by decide, by decide⟩, by decide, rfl⟩

end Helper

/-- In a new session the script defines all helpers. -/
theorem Session.execScript_helpers {s : Session} (new : s.IsFresh) (settled : s.cache.pending = [])
    (depth : Nat) :
    s.execScript (depth + 1) Resource.helperScript = (.ok 12, Helper.all.foldl adopt s) := by
  have undefined : ∀ h ∈ Helper.all, s.definition? h.name = none := by
    simp [definition?, new.definitions]
  rw [execScript, Helper.splitTerms_helperScript]
  dsimp only
  rw [execAll_helpers Helper.readQuery_queries Helper.isSound_all (by decide) new.hosts undefined
    settled]
  rfl

end KinQuery
