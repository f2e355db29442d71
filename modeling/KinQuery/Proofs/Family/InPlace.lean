import KinQuery.Proofs.Family.Consistency

/-! Edits as they are carried out in place, step by step.

An edit in place that fails leaves what it did until then. Two of the edits take bonds out
before they know whether there was one to take out; they change nothing all the same when they
fail, since a filter that drops nothing returns the list it was given. So every edit in place
does what the edit that makes a new genealogy does. -/
namespace KinQuery
namespace Genealogy
variable {g : Genealogy}

/-- Drops the tree. -/
def invalidate (g : Genealogy) : Genealogy :=
  { g with tree? := none }

/-- Takes out the bonds that are not to be kept. -/
def retain (g : Genealogy) (keep : Bond → Bool) : Genealogy :=
  { g with bonds := g.bonds.filter keep }

def pushBond (g : Genealogy) (bond : Bond) : Genealogy :=
  { g with bonds := g.bonds ++ [bond] }

/-- What an edit in place leaves, and whether it succeeded. -/
abbrev Edited := Except Failure Unit × Genealogy

namespace InPlace

/-- Goes on with a person, who has to exist. -/
def require (g : Genealogy) (id : PersonId) (next : Profile → Edited) : Edited :=
  match g.person? id with
  | some profile => next profile
  | none => (.error (.unknownPerson id), g)

def addPerson (g : Genealogy) (profile : Profile) : Edited :=
  if (g.person? profile.id).isSome then (.error (.personExists profile.id), g)
  else match profile.texts.find? fun (_, text) => text.toList.contains Text.quote with
    | some (field, text) => (.error (.quoteInProfile field profile.id text), g)
    | none => (.ok (), { g with people := g.people ++ [profile] }.invalidate)

def removePerson (g : Genealogy) (id : PersonId) : Edited :=
  require g id fun _ =>
    let alone := { g with people := g.people.filter (·.id ≠ id) }
    (.ok (), (alone.retain fun bond => !bond.links id).invalidate)

def marry (g : Genealogy) (first second : PersonId) (wedding : Date) : Edited :=
  require g first fun _ => require g second fun _ =>
    if first = second then (.error (.marriesSelf first), g)
    else match [first, second].find? g.isMarried with
      | some married => (.error (.alreadyMarried married), g)
      | none => (.ok (), (g.pushBond (.marital first second wedding)).invalidate)

def addParentage (g : Genealogy) (parent child : PersonId) : Edited :=
  require g parent fun profile => require g child fun _ =>
    if parent = child then (.error (.parentOfSelf parent), g)
    else if g.bonds.any (g.givesParent parent profile.sex child) then
      (.error (.parentExists child profile.sex), g)
    else (.ok (), (g.pushBond (.parental parent child)).invalidate)

/-- Takes bonds out, and fails afterwards if there are as many as before. -/
def takeOut (g : Genealogy) (keep : Bond → Bool) (failure : Failure) : Edited :=
  let left := g.retain keep
  if left.bonds.length = g.bonds.length then (.error failure, left)
  else (.ok (), left.invalidate)

def divorce (g : Genealogy) (first second : PersonId) : Edited :=
  takeOut g (fun bond => !bond.marries first second) (.notMarried first second)

def removeParentage (g : Genealogy) (parent child : PersonId) : Edited :=
  takeOut g (· ≠ .parental parent child) (.notParent parent child)

end InPlace

def editInPlace (g : Genealogy) : Edit → Edited
  | .addPerson profile => InPlace.addPerson g profile
  | .removePerson id => InPlace.removePerson g id
  | .marry first second wedding => InPlace.marry g first second wedding
  | .divorce first second => InPlace.divorce g first second
  | .addParentage parent child => InPlace.addParentage g parent child
  | .removeParentage parent child => InPlace.removeParentage g parent child

/-! ### What edits in place come to -/

/-- A new genealogy put in place of the old one, or the old one as it was. -/
def replaced (g : Genealogy) : Except Failure Genealogy → Edited
  | .ok h => (.ok (), h)
  | .error failure => (.error failure, g)

namespace InPlace

theorem require_eq {id : PersonId} {next : Profile → Edited}
    {f : Profile → Except Failure Genealogy} (same : ∀ p, next p = g.replaced (f p)) :
    require g id next = g.replaced (g.require id >>= f) := by
  unfold require Genealogy.require
  cases g.person? id with
  | none => rfl
  | some p => exact same p

theorem addPerson_eq (profile : Profile) :
    addPerson g profile = g.replaced (g.addPerson profile) := by
  unfold addPerson Genealogy.addPerson
  split
  · rfl
  · cases profile.texts.find? fun (_, text) => text.toList.contains Text.quote <;> rfl

theorem removePerson_eq (id : PersonId) :
    removePerson g id = g.replaced (g.removePerson id) :=
  require_eq fun _ => rfl

theorem marry_eq (first second : PersonId) (wedding : Date) :
    marry g first second wedding = g.replaced (g.marry first second wedding) := by
  refine require_eq fun _ => require_eq fun _ => ?_
  split
  · rfl
  · cases [first, second].find? g.isMarried <;> rfl

theorem addParentage_eq (parent child : PersonId) :
    addParentage g parent child = g.replaced (g.addParentage parent child) := by
  refine require_eq fun profile => require_eq fun _ => ?_
  split
  · rfl
  · split <;> rfl

/-- Where a filter drops nothing, the failing edit leaves the bonds and the tree. -/
theorem takeOut_eq (keep : Bond → Bool) (failure : Failure) :
    takeOut g keep failure = g.replaced
      (if (g.bonds.filter keep).length = g.bonds.length then .error failure
        else .ok (g.withBonds (g.bonds.filter keep))) := by
  unfold takeOut
  by_cases same : (g.bonds.filter keep).length = g.bonds.length
  · have kept : g.retain keep = g := by
      rw [retain, List.filter_sublist.eq_of_length same]
    simp only [kept, same, if_true]
    rfl
  · rw [if_neg (show ¬(g.retain keep).bonds.length = g.bonds.length from same), if_neg same]
    rfl

end InPlace

/-- Every edit in place does what the edit that makes a new genealogy does. -/
theorem editInPlace_eq (g : Genealogy) (edit : Edit) :
    g.editInPlace edit = g.replaced (g.edited edit) := by
  cases edit with
  | addPerson profile => exact InPlace.addPerson_eq profile
  | removePerson id => exact InPlace.removePerson_eq id
  | marry first second wedding => exact InPlace.marry_eq first second wedding
  | divorce first second => exact InPlace.takeOut_eq _ _
  | addParentage parent child => exact InPlace.addParentage_eq parent child
  | removeParentage parent child => exact InPlace.takeOut_eq _ _

theorem editInPlace_cases (g : Genealogy) (edit : Edit) :
    (∃ h, g.edited edit = .ok h ∧ g.editInPlace edit = (.ok (), h)) ∨
      ∃ failure, g.edited edit = .error failure ∧ g.editInPlace edit = (.error failure, g) := by
  rw [editInPlace_eq]
  cases g.edited edit with
  | ok h => exact .inl ⟨h, rfl, rfl⟩
  | error failure => exact .inr ⟨failure, rfl, rfl⟩

end Genealogy
end KinQuery
