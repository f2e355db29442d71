import KinQuery.Value

/-! The cache of results. Results of a running query are pending: they can be used at once,
but are kept only if the query succeeds. -/
namespace KinQuery

structure Cache where
  entries : List (String × Value) := []
  pending : List (String × Value) := []
  enabled : Bool := true

namespace Cache

def get? (c : Cache) (key : String) : Option Value :=
  (c.entries.lookup key).or (c.pending.lookup key)

/-- Adds a pending result, unless there is one for the key. -/
def put (c : Cache) (key : String) (v : Value) : Cache :=
  if (c.get? key).isSome then c else { c with pending := (key, v) :: c.pending }

/-- Adds an entry, unless there is one for its key. -/
def keep (entries : List (String × Value)) (entry : String × Value) : List (String × Value) :=
  if (entries.lookup entry.1).isSome then entries else entry :: entries

/-- Keeps the pending results. -/
def commit (c : Cache) : Cache :=
  { c with entries := c.pending.foldl keep c.entries, pending := [] }

/-- Forgets the pending results. -/
def discard (c : Cache) : Cache :=
  { c with pending := [] }

/-- Forgets all results. -/
def expunge (c : Cache) : Cache :=
  { c with entries := [], pending := [] }

def size (c : Cache) : Nat :=
  c.entries.length

end Cache
end KinQuery
