import KinQuery.Evaluation.Literal
import KinQuery.Function.Call
import KinQuery.Term.Substitution

/-! The evaluation of terms.

Atoms are literals, names of functions or names of definitions, in this order. A compound is
a special form or an application, whose result is kept in the cache under the key of the
term. Applying a lambda puts the arguments into its body and evaluates it; names that are
still free then are looked up in the session.

Evaluation is bounded in depth, since lambdas may recur without end. A larger bound never
changes the outcome of an evaluation that ended within a smaller one. -/
namespace KinQuery

/-- What evaluation leaves to others: the calls of primitive functions, given the application of
functions, reading literals, and the calls of registered functions, given the evaluation of terms
and the application of functions. -/
structure Workings where
  call : (Function Value → List Value → Run Value) → Primitive → List Value → Run Value
  literal : Kind → String → Run Value
  host : (Term Value → Run Value) → (Function Value → List Value → Run Value) → HostFunction →
    List Value → Run Value := fun _ _ h arguments => h.call arguments

/-- The workings by which sessions evaluate. -/
def Workings.own : Workings where
  call apply p arguments := p.call apply arguments
  literal := readLiteral

def Workings.evalAtom (W : Workings) (name : String) : Run Value :=
  match Kind.recognize name with
  | some kind => W.literal kind name
  | none => do
    let s ← get
    match s.function? name with
    | some f => return .function f
    | none =>
      match s.definition? name with
      | some v => return v
      | none => Run.fail (.unbound name)

/-- The parameters that a list declares: references that are no keywords, none of them twice.
`seen` holds those before. -/
def declareParameters (seen : List String) :
    List (Term Value) → Except Failure (List String)
  | [] => .ok []
  | .atom name :: parameters =>
    if isReference name && !isKeyword name && !seen.contains name then
      (declareParameters (name :: seen) parameters).map (name :: ·)
    else .error (.invalidParameter name)
  | parameter :: _ => .error (.invalidParameter parameter.display)

/-- The parameters and the body of a lambda term. -/
def lambdaParts (parts : List (Term Value)) : Except Failure (List String × Term Value) :=
  match parts with
  | [_, .compound declared, body] => (declareParameters [] declared).map (·, body)
  | [_, other, _] => .error (.expectedParameters other.display)
  | _ => .error (.malformedLambda (Term.compound parts).display)

/-- Makes a function of a lambda term, with a name that no other has. -/
def evalLambda (parts : List (Term Value)) : Run Value := do
  let (parameters, body) ← Run.ofExcept (lambdaParts parts)
  modifyGet fun s =>
    (.function (.lambda (s.lambdas + 1) parameters body), { s with lambdas := s.lambdas + 1 })

/-- Evaluates the branch that the condition picks, and only that one. -/
def evalConditional (eval : Term Value → Run Value) (parts : List (Term Value)) : Run Value :=
  match parts with
  | [_, condition, yes, no] => do
    let v ← eval condition
    let b ← Run.ofExcept (v.asBoolean SpecialForm.conditional.word)
    eval (if b then yes else no)
  | _ => Run.fail (.wrongBranchCount (parts.length - 1))

/-- The function that a term evaluates to. -/
def evalToFunction (eval : Term Value → Run Value) (t : Term Value) : Run (Function Value) := do
  match ← eval t with
  | .function f => return f
  | v => Run.fail (.notFunction v.term)

/-- The function at the head of an application. A name stands for a definition, if that is a
function, before it stands for a primitive or registered function. -/
def resolve (eval : Term Value → Run Value) : Term Value → Run (Function Value)
  | .atom name => do
    let s ← get
    match s.definition? name with
    | some (.function f) => return f
    | _ =>
      match s.function? name with
      | some f => return f
      | none => evalToFunction eval (.atom name)
  | head => evalToFunction eval head

/-- Evaluates the arguments from left to right and applies the function to them. The number
of arguments is checked before any of them is evaluated. -/
def applyTo (eval : Term Value → Run Value)
    (apply : Function Value → List Value → Run Value) (head : Term Value)
    (arguments : List (Term Value)) : Run Value := do
  let f ← resolve eval head
  Run.ofExcept (f.checkArity arguments.length)
  let values ← arguments.mapM eval
  apply f values

/-- Keeps a result, if caching is still on. -/
def remember (key : String) (v : Value) : Run Unit :=
  modify fun s => if s.cache.enabled then s.mapCache (·.put key v) else s

/-- Answers an application from the cache, or evaluates it and keeps the result. -/
def evalApplication (eval : Term Value → Run Value)
    (apply : Function Value → List Value → Run Value) (head : Term Value)
    (arguments : List (Term Value)) : Run Value := do
  let s ← get
  if s.cache.enabled then
    let key := (Term.compound (head :: arguments)).key
    match s.cache.get? key with
    | some v => return v
    | none =>
      let v ← applyTo eval apply head arguments
      remember key v
      return v
  else applyTo eval apply head arguments

/-- Evaluates a compound, given the evaluation of its parts and the application of functions
one level deeper. -/
def evalCompound (eval : Term Value → Run Value)
    (apply : Function Value → List Value → Run Value) (parts : List (Term Value)) : Run Value :=
  match (Term.compound parts).specialForm? with
  | some .lambda => evalLambda parts
  | some .conditional => evalConditional eval parts
  | some .define => Run.fail (.nestedDefine (Term.compound parts).display)
  | none =>
    match parts with
    | [] => Run.fail .emptyApplication
    | head :: arguments => evalApplication eval apply head arguments

namespace Workings

mutual

def eval (W : Workings) : (depth : Nat) → Term Value → Run Value
  | 0, _ => throw .tooDeep
  | depth + 1, t =>
    match t with
    | .value v => pure v
    | .atom name => W.evalAtom name
    | .compound parts => evalCompound (W.eval depth) (W.apply depth) parts

/-- Applies a function to arguments already evaluated. -/
def apply (W : Workings) : (depth : Nat) → Function Value → List Value → Run Value
  | 0, _, _ => throw .tooDeep
  | depth + 1, f, arguments => do
    Run.ofExcept (f.checkArity arguments.length)
    match f with
    | .primitive p => W.call (W.apply depth) p arguments
    | .host h => W.host (W.eval depth) (W.apply depth) h arguments
    | .lambda _ parameters body =>
      W.eval depth (body.substitute (Bindings.ofList (parameters.zip arguments)))

end

end Workings

/-! ### Evaluation in sessions -/

def evalAtom (name : String) : Run Value :=
  Workings.own.evalAtom name

def eval (depth : Nat) (t : Term Value) : Run Value :=
  Workings.own.eval depth t

def apply (depth : Nat) (f : Function Value) (arguments : List Value) : Run Value :=
  Workings.own.apply depth f arguments

section
variable (depth : Nat) (arguments : List Value)

theorem eval_value (v : Value) : eval (depth + 1) (.value v) = pure v :=
  rfl

theorem eval_atom (name : String) : eval (depth + 1) (.atom name) = evalAtom name :=
  rfl

theorem eval_compound (parts : List (Term Value)) :
    eval (depth + 1) (.compound parts) = evalCompound (eval depth) (apply depth) parts :=
  rfl

theorem apply_primitive (p : Primitive) :
    apply (depth + 1) (.primitive p) arguments =
      (do
        Run.ofExcept ((Function.primitive p).checkArity arguments.length)
        p.call (apply depth) arguments) :=
  rfl

theorem apply_host (h : HostFunction) :
    apply (depth + 1) (.host h) arguments =
      (do
        Run.ofExcept ((Function.host h : Function Value).checkArity arguments.length)
        h.call arguments) :=
  rfl

theorem apply_lambda (serial : Nat) (parameters : List String) (body : Term Value) :
    apply (depth + 1) (.lambda serial parameters body) arguments =
      (do
        Run.ofExcept ((Function.lambda serial parameters body).checkArity arguments.length)
        eval depth (body.substitute (Bindings.ofList (parameters.zip arguments)))) :=
  rfl

end

end KinQuery
