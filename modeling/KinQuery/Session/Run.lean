import KinQuery.Session.Basic

/-! Computations over a session. A computation that fails leaves the session as it was when
the failure arose. -/
namespace KinQuery

/-- What ends a computation without a value. -/
inductive Halt where
  | failed (failure : Failure)
  /-- The bound on the depth of the evaluation was reached. -/
  | tooDeep
  deriving DecidableEq

/-- What ends a computation, in words. -/
def Halt.message : Halt → String
  | .failed failure => failure.message
  | .tooDeep => "The evaluation is nested too deeply"

/-- Whether the query is to blame. -/
def Halt.isLanguage : Halt → Bool
  | .failed failure => failure.failureClass.isLanguage
  | .tooDeep => false

abbrev Run (α : Type) := ExceptT Halt (StateM Session) α

namespace Run
variable {α : Type}

def fail (failure : Failure) : Run α :=
  throw (.failed failure)

def ofExcept : Except Failure α → Run α
  | .ok a => pure a
  | .error failure => fail failure

/-- Runs a change of the session that may fail, and keeps what it did in either case. -/
def change (f : Session → Except Failure α × Session) : Run α := do
  ofExcept (← modifyGet f)

/-- Runs a change of the session that is made as a whole or not at all. -/
def update (f : Session → Except Failure Session) : Run Unit := do
  let s ← get
  set (← ofExcept (f s))

def tree : Run FamilyTree :=
  modifyGet Session.tree

/-- Goes on after a failure, from the session in which it arose. -/
def attempt (m : Run α) : Run (Except Failure α) :=
  ExceptT.mk fun s =>
    match m.run s with
    | (.ok a, t) => (.ok (.ok a), t)
    | (.error (.failed failure), t) => (.ok (.error failure), t)
    | (.error .tooDeep, t) => (.error .tooDeep, t)

end Run
end KinQuery
