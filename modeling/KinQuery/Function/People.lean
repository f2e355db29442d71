import KinQuery.Dictionary
import KinQuery.Value

/-! Persons: finding them in the family tree, their attributes, their relatives, and how they
are related. -/
namespace KinQuery.People

/-- The vertex of a person, who may have left the genealogy since. -/
def vertexOf (tree : FamilyTree) (operation : String) (a : Value) : Except Failure Nat := do
  let profile ← a.asPerson operation
  match tree.indexOf? profile.id with
  | some i => .ok i
  | none => .error (.departed operation profile.fullName)

/-- The persons at some vertices. -/
def personsAt (tree : FamilyTree) (indexes : List Nat) : List Value :=
  indexes.filterMap fun i => (tree.person? i).map .person

/-- Everyone in the tree, in its order. -/
def everyone (tree : FamilyTree) : Value :=
  .list (tree.vertices.map fun v => .person v.profile)

/-- Finds a person by a full name, or by a first and a last name; there may be none. -/
def find (tree : FamilyTree) (arguments : List Value) : Except Failure Value := do
  let operation := Primitive.person.name
  let found ← match arguments with
    | [a] => do
      let name ← a.asString operation
      .ok (tree.findByFullName? name)
    | [a, b] => do
      let first ← a.asString operation
      let last ← b.asString operation
      .ok (tree.find? first last)
    | _ =>
      .error (.wrongArgumentCount operation Primitive.person.arity arguments.length)
  .ok (((found.bind tree.person?).map .person).getD .void)

/-- The relatives of a person, or of every person of a list, along some links of the tree. -/
def related (tree : FamilyTree) (operation : String) (links : Vertex → List Nat) (a : Value) :
    Except Failure Value := do
  let people := match a with
    | .list items => items
    | single => [single]
  let relatives ← people.mapM fun person => do
    let i ← vertexOf tree operation person
    .ok (personsAt tree (((tree.vertex? i).map links).getD []))
  .ok (.list relatives.flatten)

/-- An attribute of a person by its name; there is void under other names. -/
def attributeOf (tree : FamilyTree) (today : Date) (p : Profile) (name : String) : Value :=
  match name with
  | "first name" => .string p.firstName
  | "second name" | "last name" => .string p.lastName
  | "full name" => .string p.fullName
  | "age" => .numeral (.nearest (today.year - p.birth.year))
  | "birth" | "birth date" | "date of birth" => .date p.birth
  | "sex" | "gender" => .string p.sex.name
  | "occupation" => .string p.occupation
  | "phone" | "phone number" | "tel" => .string p.phone
  | "email" | "e-mail" => .string p.email
  | "wedding" | "wedding date" | "date of wedding" | "marriage" | "marriage date"
  | "date of marriage" =>
    match (tree.indexOf? p.id).bind tree.vertex? with
    | some vertex => (vertex.wedding.map .date).getD .void
    | none => .void
  | _ => .void

/-- The attribute that a string names, in any letters and with blanks around it. -/
def attributeNamed (tree : FamilyTree) (today : Date) (a b : Value) : Except Failure Value := do
  let p ← a.asPerson Primitive.attr.name
  let name ← b.asString Primitive.attr.name
  .ok (attributeOf tree today p (Text.lowerCase (Text.trimmed name)))

/-- A list of strings. -/
def strings (chain : List String) : Value :=
  .list (chain.map .string)

/-- The kinship chain between two vertices, in words. -/
def chain (tree : FamilyTree) (a b : Nat) : List String :=
  (tree.kinship a b).map Kin.word

def kinship (tree : FamilyTree) (a b : Value) : Except Failure Value := do
  let first ← vertexOf tree Primitive.kinship.name a
  let second ← vertexOf tree Primitive.kinship.name b
  .ok (strings (chain tree first second))

def generationDistance (tree : FamilyTree) (a b : Value) : Except Failure Value := do
  let first ← vertexOf tree Primitive.generationDistance.name a
  let second ← vertexOf tree Primitive.generationDistance.name b
  .ok (.numeral (.nearest (tree.generationDistance first second)))

def shorten (dictionary : Dictionary) (a : Value) : Except Failure Value := do
  let items ← a.asList Primitive.shorten.name
  let terms ← items.mapM (·.asString Primitive.shorten.name)
  .ok (strings (dictionary.shorten terms))

/-- Whether a kinship term belongs to a relation: a group of basic terms, or just itself. -/
def belongs (term : String) : (relation : String) → Bool
  | "child" | "children" => term = Kin.son.word || term = Kin.daughter.word
  | "parent" | "parents" => term = Kin.father.word || term = Kin.mother.word
  | "spouse" => term = Kin.husband.word || term = Kin.wife.word
  | relation => term = relation

/-- Everyone else whose kinship to a person comes down to one term of the relation. -/
def relatives (tree : FamilyTree) (dictionary : Dictionary) (a b : Value) :
    Except Failure Value := do
  let ego ← vertexOf tree Primitive.relatives.name a
  let relation ← b.asString Primitive.relatives.name
  let relation := Text.lowerCase (Text.trimmed relation)
  let found := (List.range tree.size).filter fun i =>
    i ≠ ego && match dictionary.shorten (chain tree i ego) with
      | [term] => belongs term relation
      | _ => false
  .ok (.list (personsAt tree found))

end KinQuery.People
