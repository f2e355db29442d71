/-! Breadth-first search over a graph given by the neighbours of each vertex.

Vertices are numbered. Those discovered are kept with the vertex that discovered each, in the
order of discovery, which is also the order in which they are visited. -/
namespace KinQuery.Search

/-- Adds the neighbours not discovered before, as discovered by `vertex`. -/
def discover (start vertex : Nat) :
    List Nat → List (Nat × Nat) → List (Nat × Nat)
  | [], found => found
  | neighbour :: rest, found =>
    if neighbour = start || (found.lookup neighbour).isSome then discover start vertex rest found
    else discover start vertex rest (found ++ [(neighbour, vertex)])

/-- Visits the vertices of `queue` and those discovered on the way. -/
def visit (neighbours : Nat → List Nat) (start : Nat) :
    Nat → List Nat → List (Nat × Nat) → List (Nat × Nat)
  | 0, _, found => found
  | _, [], found => found
  | visits + 1, vertex :: queue, found =>
    let found' := discover start vertex (neighbours vertex) found
    visit neighbours start visits (queue ++ (found'.drop found.length).map (·.1)) found'

/-- The predecessor of every vertex that a search from `start` discovers, among `size`
vertices. No vertex is visited twice, so `size` visits are enough. -/
def predecessors (neighbours : Nat → List Nat) (size start : Nat) : List (Nat × Nat) :=
  if start < size then visit neighbours start size [start] [] else []

/-- The steps from `vertex` back to where the search began: each vertex with the one that
discovered it. A way back never has more steps than vertices were found. -/
def wayBack (found : List (Nat × Nat)) : Nat → Nat → List (Nat × Nat)
  | 0, _ => []
  | steps + 1, vertex =>
    match found.lookup vertex with
    | some previous => (vertex, previous) :: wayBack found steps previous
    | none => []

end KinQuery.Search
