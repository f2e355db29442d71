import KinQuery.Dictionary
import KinQuery.Family.Genealogy
import KinQuery.Session.Cache
import KinQuery.Term.Name

/-! Sessions: all that queries can see or change. -/
namespace KinQuery

structure Session where
  hosts : List HostFunction := []
  definitions : List (String × Value) := []
  cache : Cache := {}
  genealogy : Genealogy := {}
  dictionary : Dictionary := {}
  today : Date
  /-- How many lambdas were evaluated; each is named after its number. -/
  lambdas : Nat := 0
  /-- The calls of registered functions with their arguments, the latest first. -/
  hostCalls : List (String × List Value) := []

namespace Session

def definition? (s : Session) (name : String) : Option Value :=
  s.definitions.lookup name

/-- The primitive or registered function of a name. -/
def function? (s : Session) (name : String) : Option (Function Value) :=
  match Primitive.ofName? name with
  | some p => some (.primitive p)
  | none => (s.hosts.find? (·.name = name)).map .host

/-- Every definition with its value as a term, sorted by name. -/
def definitionTerms (s : Session) : List (String × String) :=
  s.definitions.foldl (fun sorted (name, v) => Dictionary.insertSorted name v.term sorted) []

/-- How often each registered function was called, for those that were. -/
def callCounts (s : Session) : List (String × Nat) :=
  s.hosts.filterMap fun h =>
    match (s.hostCalls.filter (·.1 = h.name)).length with
    | 0 => none
    | count => some (h.name, count)

/-- Registers a function under a name that nothing else bears. -/
def register (s : Session) (h : HostFunction) : Except Failure Session :=
  if isKeyword h.name || (s.function? h.name).isSome || (s.definition? h.name).isSome then
    .error (.nameTaken h.name)
  else .ok { s with hosts := s.hosts ++ [h] }

/-! ### The cache -/

def mapCache (s : Session) (f : Cache → Cache) : Session :=
  { s with cache := f s.cache }

def expunge (s : Session) : Session :=
  s.mapCache .expunge

def setCaching (s : Session) (enabled : Bool) : Session :=
  s.mapCache fun c => { c with enabled }

/-! ### The genealogy and the dictionary

Results may depend on both, so every change of either empties the cache. -/

/-- The family tree, which the session remembers until the next edit. -/
def tree (s : Session) : FamilyTree × Session :=
  let (tree, genealogy) := s.genealogy.tree
  (tree, { s with genealogy })

def edit (s : Session) (change : Genealogy → Except Failure Genealogy) :
    Except Failure Session :=
  (change s.genealogy).map fun genealogy => { s with genealogy, cache := s.cache.expunge }

/-- Adds an entry to the dictionary; the answer says whether it was added. -/
def putKinshipTerm (s : Session) (key name : String) : Except Failure Bool × Session :=
  match s.dictionary.put key name with
  | (.ok true, dictionary) => (.ok true, { s with dictionary, cache := s.cache.expunge })
  | (result, dictionary) => (result, { s with dictionary })

end Session
end KinQuery
