import KinQuery.Proofs.Evaluation.Application
import KinQuery.Proofs.Evaluation.Task
import KinQuery.Proofs.Term.Expansion

/-! Sessions without lambdas, and what atoms stand for in them. An atomic value is what its key
stands for, whatever was defined. -/
namespace KinQuery

/-- No registered function is in reach, what the session shows is plain, and what it defines is
no word of the language. Of the values that are defined nothing is asked. -/
structure Session.IsSober (c : Session) : Prop where
  hosts : c.hosts = []
  world : c.world.IsPlain
  names : ∀ entry ∈ c.definitions, isReference entry.1 = true ∧ isKeyword entry.1 = false ∧
    Primitive.ofName? entry.1 = none

/-- Nothing that a query can reach is a lambda or changes the dictionary. -/
structure Session.IsPlain (c : Session) : Prop where
  hosts : c.hosts = []
  world : c.world.IsPlain
  definitions : ∀ entry ∈ c.definitions, entry.2.IsPlainIn c.world
  names : ∀ entry ∈ c.definitions, isReference entry.1 = true ∧ isKeyword entry.1 = false ∧
    Primitive.ofName? entry.1 = none

theorem Session.IsPlain.isSober {c : Session} (hc : c.IsPlain) : c.IsSober :=
  ⟨hc.hosts, hc.world, hc.names⟩

/-- The words and values of plain terms that name no definition but those of plain values. -/
abbrev Vocabulary.plainFor (c : Session) : Vocabulary :=
  .spelled (fun text => IsPlainAtom text ∧ ∀ v, c.definition? text = some v → v.IsPlainIn c.world)
    (· ≠ .putKinshipTerm) c.world

/-- The term is plain, and so are the values of the names in it. -/
abbrev Term.IsPlainFor (c : Session) (t : Term Value) : Prop :=
  t.Obeys (.plainFor c)

variable {c : Session} {v : Value} {t : Term Value} {name : String} {atom : String → Prop}
  {allowed : Primitive → Prop}

theorem Vocabulary.plainFor_within_plain (c : Session) :
    (Vocabulary.plainFor c).Within (.plain c.world) :=
  ⟨fun _ h => h.1, fun _ h => h, id⟩

theorem Term.Obeys.plainIn (plain : t.IsPlainFor c) : t.IsPlainIn c.world :=
  plain.mono (Vocabulary.plainFor_within_plain c)

theorem Session.IsPlain.plain_within_plainFor (hc : c.IsPlain) :
    (Vocabulary.plain c.world).Within (.plainFor c) :=
  ⟨fun _ h => ⟨h, fun _ hv => hc.definitions _ (Session.definition?_mem hv)⟩, fun _ h => h, id⟩

theorem Session.IsPlain.plainFor (hc : c.IsPlain) (plain : t.IsPlainIn c.world) : t.IsPlainFor c :=
  plain.mono hc.plain_within_plainFor

namespace Session.IsSober

theorem function? (hc : c.IsSober) (name : String) :
    c.function? name = (Primitive.ofName? name).map .primitive := by
  unfold Session.function?
  rw [hc.hosts]
  cases Primitive.ofName? name <;> rfl

theorem atomAnswer_eq (hc : c.IsSober) (name : String) : atomAnswer c name =
    match Kind.recognize name with
    | some kind => literalAnswer kind name c.world.tree c.today
    | none =>
      match Primitive.ofName? name with
      | some p => .ok (.function (.primitive p))
      | none => ((c.definition? name).map .ok).getD (.error (.unbound name)) := by
  unfold atomAnswer
  rw [hc.function?]
  cases Kind.recognize name with
  | some kind => rfl
  | none =>
    cases Primitive.ofName? name with
    | some p => rfl
    | none => cases c.definition? name <;> rfl

theorem atomAnswer_spelled (hc : c.IsSober) (digits : Text.HasAsciiDigits name.toList)
    (primitive : ∀ p : Primitive, p.name = name → allowed p)
    (defined : ∀ v, c.definition? name = some v → v.IsSpelled atom allowed c.world) :
    Gives (Value.IsSpelled atom allowed c.world) (atomAnswer c name) := by
  rw [hc.atomAnswer_eq]
  split
  · exact literalAnswer_plain hc.world digits
  · split
    · rename_i p hp
      exact .ok (Value.isSpelled_function.2 ⟨p, rfl, primitive p (by simpa using List.find?_some hp)⟩)
    · cases hv : c.definition? name with
      | none => exact .error _
      | some v => exact .ok (defined v hv)

theorem atomAnswer_plain (hc : c.IsSober) (h : (Vocabulary.plainFor c).atom name) :
    Gives (Value.IsPlainIn c.world) (atomAnswer c name) := by
  refine hc.atomAnswer_spelled h.1.digits ?_ h.2
  rintro p spelled rfl
  exact h.1.not_put spelled.symm

theorem isReference_of_definition? (hc : c.IsSober) (h : c.definition? name = some v) :
    isReference name = true ∧ isKeyword name = false ∧ Primitive.ofName? name = none :=
  hc.names _ (Session.definition?_mem h)

/-- What is defined is no literal and no function. -/
theorem atomAnswer_of_definition? (hc : c.IsSober) (h : c.definition? name = some v) :
    atomAnswer c name = .ok v := by
  obtain ⟨reference, free, other⟩ := hc.isReference_of_definition? h
  rw [hc.atomAnswer_eq, Kind.recognize_reference reference free, other, h]
  rfl

theorem atomAnswer_primitive (hc : c.IsSober) (p : Primitive) :
    atomAnswer c p.name = .ok (.function (.primitive p)) := by
  rw [hc.atomAnswer_eq, Kind.recognize_primitive, p.ofName?_name]

end Session.IsSober

end KinQuery
