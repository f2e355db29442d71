import KinQuery.Proofs.Evaluation.Task

/-! Evaluation with environments.

Nothing is put in place here: a term is evaluated as it was read, in an environment that says
what the parameters around it stand for. A lambda evaluates to a closure, which keeps the
environment that it was made in. A name is looked up in the environment and then, as an atom
without an environment, among literals, functions and definitions. -/
namespace KinQuery

/-- What parameters stand for, the innermost first. -/
abbrev Env := List (String × Value)

/-! ### Closures -/

/-- The body of a closure: the body of the lambda, and after it the environment. -/
def close (env : Env) (body : Term Value) : Term Value :=
  .compound (body :: env.map fun (name, v) => .compound [.atom name, .value v])

def binding? : Term Value → Option (String × Value)
  | .compound [.atom name, .value v] => some (name, v)
  | _ => none

/-- The environment and the body that a closure was made of. -/
def opened : Term Value → Env × Term Value
  | .compound (body :: entries) => (entries.filterMap binding?, body)
  | t => ([], t)

@[simp] theorem opened_close (env : Env) (body : Term Value) :
    opened (close env body) = (env, body) := by
  have entries : (env.map fun (name, v) =>
      (.compound [.atom name, .value v] : Term Value)).filterMap binding? = env := by
    induction env with
    | nil => rfl
    | cons entry env ih => simp [binding?, ih]
  rw [close, opened, entries]

/-! ### Evaluation -/

/-- What a name stands for. -/
def lookUpIn (env : Env) (name : String) : Run Value :=
  match env.lookup name with
  | some v => pure v
  | none => evalAtom name

/-- Makes a closure of a lambda term. -/
def evalLambdaIn (env : Env) (parts : List (Term Value)) : Run Value := do
  let (parameters, body) ← Run.ofExcept (lambdaParts parts)
  modifyGet fun s =>
    (.function (.lambda (s.lambdas + 1) parameters (close env body)),
      { s with lambdas := s.lambdas + 1 })

/-- Evaluates the head, checks the number of arguments, evaluates them from left to right and
applies the function. -/
def evalApplicationIn (evaluate : Term Value → Run Value)
    (perform : Function Value → List Value → Run Value) (head : Term Value)
    (arguments : List (Term Value)) : Run Value := do
  let f ← evalToFunction evaluate head
  Run.ofExcept (f.checkArity arguments.length)
  let values ← arguments.mapM evaluate
  perform f values

def evalCompoundIn (env : Env) (evaluate : Term Value → Run Value)
    (perform : Function Value → List Value → Run Value) (parts : List (Term Value)) : Run Value :=
  match (Term.compound parts).specialForm? with
  | some .lambda => evalLambdaIn env parts
  | some .conditional => evalConditional evaluate parts
  | some .define => Run.fail (.nestedDefine (Term.compound parts).display)
  | none =>
    match parts with
    | [] => Run.fail .emptyApplication
    | head :: arguments => evalApplicationIn evaluate perform head arguments

mutual

def evalIn : (depth : Nat) → Env → Term Value → Run Value
  | 0, _, _ => throw .tooDeep
  | depth + 1, env, t =>
    match t with
    | .value v => pure v
    | .atom name => lookUpIn env name
    | .compound parts => evalCompoundIn env (evalIn depth env) (applyIn depth) parts

/-- Applies a function; a closure is evaluated in its own environment, with the arguments
before it. -/
def applyIn : (depth : Nat) → Function Value → List Value → Run Value
  | 0, _, _ => throw .tooDeep
  | depth + 1, f, arguments => do
    Run.ofExcept (f.checkArity arguments.length)
    match f with
    | .primitive p => p.call (applyIn depth) arguments
    | .host h => h.call arguments
    | .lambda _ parameters body =>
      let (env, body) := opened body
      evalIn depth (parameters.zip arguments ++ env) body

end

/-! ### Queries -/

namespace Task

/-- Evaluates the term of a task with environments and settles it. -/
def runIn (task : Task) (depth : Nat) (s : Session) : Except Halt Value × Session :=
  match (evalIn depth [] task.term).run s with
  | (.ok v, t) => (.ok (task.answer v), task.settle v t)
  | (.error halt, t) => (.error halt, t)

end Task

/-- Runs a query with environments. -/
def Session.execIn (depth : Nat) (query : String) (s : Session) : Except Halt Value × Session :=
  match s.taskAsRead query with
  | .ok task => task.runIn depth s
  | .error failure => (.error (.failed failure), s)

end KinQuery
