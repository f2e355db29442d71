import KinQuery.Evaluation.Query

/-! What registered functions may do.

A registered function sees the session and asks it for one thing after the other. It goes on with
each answer, a failure included, until it ends with a result. What it asks for may depend on all
that it sees, in particular on the earlier calls of registered functions with their arguments. So
the calls of a function that keeps a state of its own are told by its programs too. -/
namespace KinQuery

/-- What a registered function asks of the session. -/
inductive Request where
  | eval (t : Term Value)
  | apply (f : Function Value) (arguments : List Value)
  /-- A query of its own, while one is running. -/
  | exec (query : String)
  | register (h : HostFunction)
  | tree
  | edit (change : Genealogy → Except Failure Genealogy)
  | putKinshipTerm (key name : String)
  | setCaching (enabled : Bool)
  | expunge

/-- What a registered function does from one step on. -/
inductive HostProgram where
  | done (result : Except Failure Value)
  | look (next : Session → HostProgram)
  | ask (request : Request) (next : Except Failure Value → HostProgram)

section
variable (eval : Term Value → Run Value) (apply : Function Value → List Value → Run Value)

def Request.run : Request → Run Value
  | .eval t => eval t
  | .apply f arguments => apply f arguments
  | .exec query => ExceptT.mk (Session.execBy eval query)
  | .register h => do
    Run.update (·.register h)
    return .void
  | .tree => do
    let _ ← Run.tree
    return .void
  | .edit change => do
    Run.update (·.edit change)
    return .void
  | .putKinshipTerm key name => do
    let added ← Run.change (·.putKinshipTerm key name)
    return .boolean added
  | .setCaching enabled => do
    modify (·.setCaching enabled)
    return .void
  | .expunge => do
    modify .expunge
    return .void

def HostProgram.run : HostProgram → Run Value
  | .done result => Run.ofExcept result
  | .look next => do
    let s ← get
    (next s).run
  | .ask request next => do
    let answer ← Run.attempt (request.run eval apply)
    (next answer).run

end

def noteCall (h : HostFunction) (arguments : List Value) : Run Unit :=
  modify fun s => { s with hostCalls := (h.name, arguments) :: s.hostCalls }

/-- What each registered function does with its arguments. -/
abbrev Hosting :=
  HostFunction → List Value → HostProgram

namespace Hosting

/-- Notes the call of a registered function and runs its program. -/
def call (P : Hosting) (eval : Term Value → Run Value)
    (apply : Function Value → List Value → Run Value) (h : HostFunction)
    (arguments : List Value) : Run Value := do
  noteCall h arguments
  (P h arguments).run eval apply

/-- The workings of sessions, but for what registered functions do. -/
def workings (P : Hosting) : Workings where
  call apply p arguments := p.call apply arguments
  literal := readLiteral
  host := P.call

end Hosting

/-! ### The actions of registered functions -/

/-- The program of an action. -/
def HostAction.program (name : String) (arguments : List Value) : HostAction → HostProgram
  | .first => .done (.ok (arguments.head?.getD .void))
  | .collect => .done (.ok (.list arguments))
  | .expunge => .ask .expunge fun _ => .done (.ok (arguments.head?.getD .void))
  | .toggle => .look fun s => .ask (.setCaching !s.cache.enabled) fun _ =>
    .done (.ok (arguments.head?.getD .void))
  | .fail => .done (.error (.hostFailed name))
  | .compute f => .done (computed f arguments)

namespace Hosting

/-- Every registered function does what its action says. -/
def actions : Hosting := fun h arguments =>
  h.action.program h.name arguments

theorem actions_call (eval : Term Value → Run Value)
    (apply : Function Value → List Value → Run Value) (h : HostFunction)
    (arguments : List Value) : actions.call eval apply h arguments = h.call arguments := by
  unfold Hosting.call actions HostFunction.call
  cases h.action <;> rfl

/-- Sessions evaluate with registered functions that do what their actions say. -/
theorem actions_workings : actions.workings = .own := by
  have same : actions.call = fun _ _ h arguments => h.call arguments := by
    funext eval apply h arguments
    exact actions_call eval apply h arguments
  exact congrArg (Workings.mk _ _) same

theorem actions_exec (depth : Nat) (query : String) (s : Session) :
    actions.workings.exec depth query s = s.exec depth query := by
  rw [actions_workings]
  rfl

end Hosting
end KinQuery
