import KinQuery.Proofs.Family.Mirror
import KinQuery.Proofs.Range.Checked

/-! Building a family tree by positions.

The places of persons are read from a two-way index of ids, and every bond changes the vertices
at two of them. The index gives no place beyond the persons it was made of. -/
namespace KinQuery.Range

/-- Changes the vertex at a place. -/
def alter (vertices : List Vertex) (i : Nat) (f : Vertex → Vertex) : Option (List Vertex) :=
  if i < vertices.length then some (vertices.modify i f) else none

/-- Adds the links of one bond. -/
def link (index : IdIndex) (vertices : List Vertex) : Bond → Option (List Vertex)
  | .marital first second wedding =>
    match index.place? first, index.place? second with
    | some a, some b => do
      let vertices ← alter vertices a (·.setSpouse b wedding)
      alter vertices b (·.setSpouse a wedding)
    | _, _ => some vertices
  | .parental parent child =>
    match index.place? parent, index.place? child with
    | some p, some c => do
      let vertices ← alter vertices p (·.addChild c)
      let vertex ← vertices[p]?
      alter vertices c (·.setParent vertex.profile.sex p)
    | _, _ => some vertices

def build (people : List Profile) (bonds : List Bond) : Option FamilyTree := do
  let vertices ← bonds.foldlM (link (.ofPeople people)) (FamilyTree.ofPeople people).vertices
  some ⟨vertices⟩

/-- The family tree of a genealogy, and the genealogy that remembers it. -/
def tree (g : Genealogy) : Option (FamilyTree × Genealogy) :=
  match g.tree? with
  | some tree => some (tree, g)
  | none => do
    let tree ← build g.people g.bonds
    some (tree, { g with tree? := some tree })

variable {people : List Profile} {tree : FamilyTree} {id : PersonId} {i : Nat}

theorem lt_of_indexOf? (found : tree.indexOf? id = some i) : i < tree.size :=
  (List.findIdx?_eq_some_iff_getElem.1 found).1

theorem alter_eq (within : i < tree.vertices.length) (f : Vertex → Vertex) :
    alter tree.vertices i f = some (tree.modify i f).vertices :=
  if_pos within

theorem link_eq (unique : (people.map (·.id)).Nodup) (seats : tree.Seats people) (bond : Bond) :
    link (.ofPeople people) tree.vertices bond = some (tree.link bond).vertices := by
  have place (id : PersonId) : (IdIndex.ofPeople people).place? id = tree.indexOf? id :=
    (IdIndex.place?_ofPeople unique id).trans (seats.indexOf? id).symm
  have same (f : Vertex → Vertex) (j : Nat) :
      (tree.modify j f).vertices.length = tree.vertices.length := List.length_modify ..
  cases bond with
  | marital first second wedding =>
    simp only [link, FamilyTree.link, place]
    cases ha : tree.indexOf? first with
    | none => rfl
    | some a =>
      cases hb : tree.indexOf? second with
      | none => rfl
      | some b =>
        dsimp only
        rw [alter_eq (lt_of_indexOf? ha), Option.bind_eq_bind, Option.bind_some,
          alter_eq (by rw [same]; exact lt_of_indexOf? hb)]
  | parental parent child =>
    simp only [link, FamilyTree.link, place]
    cases hp : tree.indexOf? parent with
    | none => rfl
    | some p =>
      cases hc : tree.indexOf? child with
      | none => rfl
      | some c =>
        obtain ⟨vertex, here⟩ : ∃ vertex, tree.vertices[p]? = some vertex :=
          ⟨_, List.getElem?_eq_getElem (lt_of_indexOf? hp)⟩
        -- the vertex is read after it was given a child, which leaves its person as it was
        have read : (tree.modify p (·.addChild c)).vertices[p]? = some (vertex.addChild c) := by
          simp [FamilyTree.modify, here]
        have person : tree.person? p = some vertex.profile := by
          rw [FamilyTree.person?, FamilyTree.vertex?, here, Option.map_some]
        simp only [person, alter_eq (lt_of_indexOf? hp), Option.bind_eq_bind, Option.bind_some, read]
        exact alter_eq (by rw [same]; exact lt_of_indexOf? hc) _

/-- Persons with ids of their own can be linked by any bonds. -/
theorem build_eq (unique : (people.map (·.id)).Nodup) (bonds : List Bond) :
    build people bonds = some (.build people bonds) := by
  have linked (tree : FamilyTree) (seats : tree.Seats people) :
      bonds.foldlM (link (.ofPeople people)) tree.vertices =
        some (bonds.foldl FamilyTree.link tree).vertices := by
    induction bonds generalizing tree with
    | nil => rfl
    | cons bond bonds ih =>
      rw [List.foldlM_cons, link_eq unique seats, Option.bind_eq_bind, Option.bind_some,
        List.foldl_cons]
      exact ih _ (FamilyTree.link_seats seats bond)
  have seats : (FamilyTree.ofPeople people).Seats people := (FamilyTree.build_spec people []).1
  rw [build, linked _ seats]
  rfl

theorem tree_eq {g : Genealogy} (reached : g.Reachable) : Range.tree g = some g.tree := by
  unfold Range.tree Genealogy.tree
  cases g.tree? with
  | some tree => rfl
  | none =>
    dsimp only
    rw [build_eq reached.isConsistent.ids]
    rfl

end KinQuery.Range
