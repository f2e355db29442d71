import KinQuery.Failure
import KinQuery.Family.Kinship
import KinQuery.Json.Reader
import KinQuery.Json.Writer

/-! The kinship dictionary: short names for chains of kinship terms.

An entry has a key, which is a chain written with commas, and a name. In a key the words
`parent`, `child` and `spouse` stand for either of two basic terms, so that one entry names
several chains; the entry added last decides the name of a chain. A dictionary may be kept in
a file, which is written anew with every addition. -/
namespace KinQuery

/-- The file that keeps a dictionary: its text, if there is one, and what hinders writing. -/
structure BackingFile where
  text : Option String := none
  obstacle : Option StorageFault := none
  deriving DecidableEq

structure Dictionary where
  /-- Keys and names as they were added, sorted by key. -/
  entries : List (String × String) := []
  /-- Every chain that has a name, the latest first. -/
  chains : List (List String × String) := []
  file : Option BackingFile := none
  deriving DecidableEq

namespace Dictionary

def empty : Dictionary := {}

/-! ### Keys -/

/-- The terms of a key, without the blanks around them. -/
def keyTerms (key : String) : List String :=
  (Text.splitOn ',' key.toList).map fun term => .ofList (Text.trim term)

/-- A key without blanks around its terms. -/
def normalKey (key : String) : String :=
  ",".intercalate (keyTerms key)

/-- The basic terms that a term of a key stands for. -/
def alternatives : String → List String
  | "parent" => [Kin.mother.word, Kin.father.word]
  | "child" => [Kin.son.word, Kin.daughter.word]
  | "spouse" => [Kin.husband.word, Kin.wife.word]
  | term => [term]

/-- Every chain that the terms of a key stand for. -/
def expand : List String → List (List String)
  | [] => [[]]
  | term :: terms => (alternatives term).flatMap fun first => (expand terms).map (first :: ·)

/-! ### Adding entries -/

/-- Adds a pair to a list sorted by key, in the place of one with the same key. -/
def insertSorted (key name : String) : List (String × String) → List (String × String)
  | [] => [(key, name)]
  | entry :: entries =>
    if key = entry.1 then (key, name) :: entries
    else if key < entry.1 then (key, name) :: entry :: entries
    else entry :: insertSorted key name entries

def hasQuote (s : String) : Bool :=
  s.toList.contains Text.quote

/-- Adds an entry in memory. No term of the key may be empty, nor the name, and neither may
hold a quote. -/
def insert (d : Dictionary) (key name : String) : Except Failure Dictionary :=
  let terms := keyTerms key
  let key := normalKey key
  let name := Text.trimmed name
  if terms.any (·.isEmpty) || name.isEmpty || hasQuote key || hasQuote name then
    .error (.invalidEntry key name)
  else
    .ok { d with
      entries := insertSorted key name d.entries
      chains := (expand terms).map (·, name) ++ d.chains }

def insertAll (d : Dictionary) (entries : List (String × String)) : Except Failure Dictionary :=
  entries.foldlM (fun d entry => d.insert entry.1 entry.2) d

/-- A dictionary in memory with the given entries, added in order. -/
def ofEntries (entries : List (String × String)) : Except Failure Dictionary :=
  empty.insertAll entries

/-! ### The file -/

/-- The document that records the entries. -/
def record (d : Dictionary) : String :=
  Json.indented "" (.object (d.entries.map fun (key, name) => (key, .text name)))

def save (d : Dictionary) : Except Failure Dictionary :=
  match d.file with
  | none => .ok d
  | some file =>
    match file.obstacle with
    | some fault => .error (.storage fault)
    | none => .ok { d with file := some { file with text := some d.record } }

/-- The entries of a document, sorted by key; of two with one key the later counts. -/
def readEntries (text : String) : Option (List (String × String)) :=
  match Json.parse? text with
  | some (.object members) =>
    members.foldlM
      (fun entries (key, value) => value.text?.map fun name => insertSorted key name entries) []
  | _ => none

/-- The dictionary that a file keeps; a file that is not there keeps none. -/
def load (file : BackingFile) : Except Failure Dictionary :=
  match file.text with
  | none => .ok { file := some file }
  | some text =>
    match readEntries text with
    | none => .error (.storage .unreadable)
    | some entries => insertAll { file := some file } entries

/-- Adds an entry and saves the dictionary, unless the key is there already. The answer says
whether it was added. An entry stays in memory even if it cannot be saved. -/
def put (d : Dictionary) (key name : String) : Except Failure Bool × Dictionary :=
  if (d.entries.lookup (normalKey key)).isSome then (.ok false, d)
  else match d.insert key name with
    | .error failure => (.error failure, d)
    | .ok added =>
      match added.save with
      | .error failure => (.error failure, added)
      | .ok saved => (.ok true, saved)

/-! ### Looking up and shortening -/

/-- The name of a chain. -/
def get? (d : Dictionary) (chain : List String) : Option String :=
  d.chains.lookup chain

/-- The longest named part of two or more terms at the beginning of a chain, among those of at
most `length` terms. -/
def namedStart (d : Dictionary) (chain : List String) : (length : Nat) → Option (Nat × String)
  | 0 => none
  | 1 => none
  | length + 2 =>
    match d.get? (chain.take (length + 2)) with
    | some name => some (length + 2, name)
    | none => namedStart d chain (length + 1)

/-- A named part of a chain. -/
structure Stretch where
  start : Nat
  length : Nat
  name : String
  deriving DecidableEq

/-- The longest named stretch of a chain, the leftmost among equally long ones. -/
def longestStretch (d : Dictionary) : List String → Option Stretch
  | [] => none
  | term :: terms =>
    let later := (longestStretch d terms).map fun s => { s with start := s.start + 1 }
    match d.namedStart (term :: terms) (terms.length + 1) with
    | none => later
    | some (length, name) =>
      match later with
      | some stretch => if length < stretch.length then some stretch else some ⟨0, length, name⟩
      | none => some ⟨0, length, name⟩

theorem namedStart_bounds {d : Dictionary} {chain : List String} {length n : Nat}
    {name : String} (h : d.namedStart chain length = some (n, name)) : 2 ≤ n ∧ n ≤ length := by
  induction length with
  | zero => simp [namedStart] at h
  | succ length ih =>
    cases length with
    | zero => simp [namedStart] at h
    | succ length =>
      rw [namedStart] at h
      split at h
      · cases h
        omega
      · have := ih h
        omega

theorem longestStretch_bounds {d : Dictionary} {chain : List String} {s : Stretch}
    (h : d.longestStretch chain = some s) :
    2 ≤ s.length ∧ s.start + s.length ≤ chain.length := by
  induction chain generalizing s with
  | nil => simp [longestStretch] at h
  | cons term terms ih =>
    have later : ∀ t, (d.longestStretch terms).map
        (fun s => ({ s with start := s.start + 1 } : Stretch)) = some t →
        2 ≤ t.length ∧ t.start + t.length ≤ terms.length + 1 := by
      intro t ht
      obtain ⟨u, hu, rfl⟩ := Option.map_eq_some_iff.1 ht
      have := ih hu
      simp only
      omega
    simp only [longestStretch] at h
    simp only [List.length_cons]
    split at h
    · exact later s h
    · rename_i hn
      have hb := namedStart_bounds hn
      split at h
      · rename_i ht
        split at h
        · cases h
          exact later _ ht
        · cases h
          simp only
          omega
      · cases h
        simp only
        omega

/-- Compresses a chain: its longest named stretch becomes the name, and the parts before and
after it are compressed in the same way. -/
def shorten (d : Dictionary) (chain : List String) : List String :=
  match _h : d.longestStretch chain with
  | none => chain
  | some stretch =>
    shorten d (chain.take stretch.start) ++
      stretch.name :: shorten d (chain.drop (stretch.start + stretch.length))
termination_by chain.length
decreasing_by
  · have := longestStretch_bounds _h
    simp only [List.length_take]
    omega
  · have := longestStretch_bounds _h
    simp only [List.length_drop]
    omega

end Dictionary
end KinQuery
