import KinQuery.Evaluation.Basic
import KinQuery.Term.Parser

/-! Queries and scripts.

A query is one term: a definition, or a term in which the defined names are put in place and
which is then evaluated. Its results are kept only if it succeeds. A script is a sequence of
queries that ends with the first failure. -/
namespace KinQuery

namespace Session

/-- What defined names stand for. -/
def bindings (s : Session) : Bindings Value :=
  s.definition?

end Session

/-- The name that a define term defines. -/
def definedName (parts : List (Term Value)) : Except Failure String :=
  match parts with
  | _ :: .atom name :: _ => if isReference name then .ok name else .error (.expectedReference name)
  | _ :: other :: _ => .error (.expectedReference other.display)
  | _ => .error .defineWithoutName

/-- Refuses a name that already means something. -/
def checkUndefined (s : Session) (name : String) : Except Failure Unit :=
  if isKeyword name then .error (.redefinesKeyword name)
  else if (s.function? name).isSome then .error (.redefinesFunction name)
  else if (s.definition? name).isSome then .error (.redefinesDefinition name)
  else .ok ()

/-- Checks a define term, evaluates its last part and binds the name to the value. -/
def define (eval : Term Value → Run Value) (parts : List (Term Value)) : Run Value := do
  let name ← Run.ofExcept (definedName parts)
  match parts with
  | [_, _, designatum] =>
    let s ← get
    Run.ofExcept (checkUndefined s name)
    let v ← eval (designatum.substitute s.bindings)
    modify fun s => { s with definitions := (name, v) :: s.definitions }
    return .void
  | _ => Run.fail (.malformedDefine (Term.compound parts).display)

/-- Reads a query: it has to be balanced, and spell one term once it is clipped. -/
def readQuery (query : String) : Except Failure (Term Value) :=
  if Text.isBalanced query.toList then
    match Term.parse (.ofList (Text.clip query.toList)) with
    | .ok t => .ok t
    | .error place => .error (.misplaced place)
  else .error (.unbalancedQuery query)

def runTerm (eval : Term Value → Run Value) (t : Term Value) : Run Value :=
  match t.specialForm?, t with
  | some .define, .compound parts => define eval parts
  | _, t => do
    let s ← get
    eval (t.substitute s.bindings)

def runQuery (eval : Term Value → Run Value) (query : String) : Run Value := do
  let t ← Run.ofExcept (readQuery query)
  runTerm eval t

/-- A bound on the depth of evaluation that serves everyday queries. -/
def usualDepth : Nat := 100000

namespace Session

/-- Runs a query, given the evaluation of terms. The results of a query that fails are
forgotten. -/
def execBy (eval : Term Value → Run Value) (query : String) (s : Session) :
    Except Halt Value × Session :=
  match (runQuery eval query).run (s.mapCache .discard) with
  | (.ok v, s) => (.ok v, s.mapCache .commit)
  | (.error halt, s) => (.error halt, s.mapCache .discard)

/-- Runs a query. -/
def exec (depth : Nat) (query : String) (s : Session) : Except Halt Value × Session :=
  s.execBy (eval depth) query

/-- Runs queries one after the other, up to the first that fails. -/
def execAll (depth : Nat) : List String → Session → Except Halt Unit × Session
  | [], s => (.ok (), s)
  | query :: queries, s =>
    match s.exec depth query with
    | (.ok _, s) => execAll depth queries s
    | (.error halt, s) => (.error halt, s)

/-- Runs a script; the answer is the number of its terms. -/
def execScript (depth : Nat) (script : String) (s : Session) : Except Halt Nat × Session :=
  match Text.splitTerms script with
  | .error fault => (.error (.failed (.unsplittable fault)), s)
  | .ok terms =>
    match s.execAll depth terms with
    | (.ok (), s) => (.ok terms.length, s)
    | (.error halt, s) => (.error halt, s)

end Session

/-- Runs a query with other workings than those of sessions. -/
def Workings.exec (W : Workings) (depth : Nat) (query : String) (s : Session) :
    Except Halt Value × Session :=
  s.execBy (W.eval depth) query

end KinQuery
