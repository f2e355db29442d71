import KinQuery.Evaluation.Query

/-! A session shared by several callers. Queries run one at a time, each under a number of its
own. A caller that breaks down while it holds the session poisons the lock: from then on
nobody gets at the session, but queries are still numbered. -/
namespace KinQuery

structure Service where
  session : Session
  /-- How many queries were asked; the next one bears the number after it. -/
  asked : Nat := 0
  poisoned : Bool := false

/-- The outcome of a query with its number. -/
structure Reply where
  id : Nat
  result : Except Halt Value

namespace Service

/-- Uses the session alone. -/
def withSession {α : Type} (s : Service) (f : Session → α × Session) :
    Except Failure α × Service :=
  if s.poisoned then (.error .poisonedLock, s)
  else
    let (a, session) := f s.session
    (.ok a, { s with session })

def run (depth : Nat) (query : String) (s : Service) : Reply × Service :=
  let id := s.asked + 1
  match s.withSession (·.exec depth query) with
  | (.ok result, s) => (⟨id, result⟩, { s with asked := id })
  | (.error failure, s) => (⟨id, .error (.failed failure)⟩, { s with asked := id })

/-- Whether there is a last query whose time was taken. -/
def isTimed (s : Service) : Bool :=
  s.asked ≠ 0

def poison (s : Service) : Service :=
  { s with poisoned := true }

end Service
end KinQuery
