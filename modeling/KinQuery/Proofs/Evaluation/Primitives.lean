import KinQuery.Proofs.Evaluation.Atom
import KinQuery.Proofs.Evaluation.Vocabulary

/-! Primitives that only read make no functions. What is asked of functions alone, wherever
they are in a value, holds of the answers of such primitives if it holds of the arguments. One
such property is that a value holds no registered function. -/
namespace KinQuery

open List (Forall₂)

/-- Some of the primitives, lambdas, and no registered function. -/
def Vocabulary.over (allowed : Primitive → Prop) : Vocabulary where
  atom text := ∀ p, Primitive.ofName? text = some p → allowed p
  leaf v := ∀ f, v = .function f → ∃ p, f = .primitive p ∧ allowed p
  lambda := True

namespace Value
variable {allowed : Primitive → Prop}

@[simp] theorem obeys_over_primitive {p : Primitive} :
    (Value.function (.primitive p)).Obeys (.over allowed) ↔ allowed p := by
  simp [Obeys, Vocabulary.over]

theorem not_obeys_over_host {h : HostFunction} :
    ¬(Value.function (.host h)).Obeys (.over allowed) := by
  simp [Obeys, Vocabulary.over]

end Value

/-- A property that a list has if its items have it, and that every value has without functions. -/
structure Value.IsTransparent (P : Value → Prop) : Prop where
  leaf : ∀ v : Value, v.isPlain = true → (∀ items, v ≠ .list items) → P v
  list : ∀ items, P (.list items) ↔ ∀ item ∈ items, P item

theorem Value.isTransparent_over {allowed : Primitive → Prop} :
    IsTransparent (·.Obeys (.over allowed)) where
  list _ := Value.obeys_list
  leaf v plain other := by
    cases v with
    | list items => exact absurd rfl (other items)
    | function f => simp [isPlain] at plain
    | _ => simp [Obeys, Vocabulary.over]

variable {P : Value → Prop} {v w : Value}

/-- The functions with a property, each related to itself. -/
def Endowed (P : Value → Prop) (f g : Function Value) : Prop :=
  f = g ∧ P (.function f)

theorem endowed_faithful : Value.Faithful (Endowed P) where
  name h := by rw [h.1]
  arity h := by rw [h.1]

namespace Value.IsTransparent

mutual

theorem plain (transparent : IsTransparent P) : ∀ {v : Value}, v.isPlain = true → P v
  | .list items, h => (transparent.list items).2 (transparent.plain_items (by simpa [isPlain] using h))
  | .function _, h => by simp [isPlain] at h
  | .boolean _, _ | .numeral _, _ | .string _, _ | .date _, _ | .person _, _ | .void, _ =>
    transparent.leaf _ rfl (by simp)

theorem plain_items (transparent : IsTransparent P) :
    ∀ {items : List Value}, arePlain items = true → ∀ item ∈ items, P item
  | [], _ => by simp
  | item :: items, h => by
    simp only [arePlain, Bool.and_eq_true] at h
    exact List.forall_mem_cons.2 ⟨transparent.plain h.1, transparent.plain_items h.2⟩

end

mutual

theorem lift (transparent : IsTransparent P) : ∀ {v : Value}, P v → Lift (Endowed P) v v
  | .list items, h => .list (transparent.lift_items ((transparent.list items).1 h))
  | .function _, h => .function ⟨rfl, h⟩
  | .boolean _, _ => .boolean _
  | .numeral _, _ => .numeral _
  | .string _, _ => .string _
  | .date _, _ => .date _
  | .person _, _ => .person _
  | .void, _ => .void

theorem lift_items (transparent : IsTransparent P) : ∀ {items : List Value},
    (∀ item ∈ items, P item) → Forall₂ (Lift (Endowed P)) items items
  | [], _ => .nil
  | _ :: _, h => .cons (transparent.lift (h _ (by simp))) (transparent.lift_items fun item member =>
      h item (by simp [member]))

end

mutual

theorem of_lift (transparent : IsTransparent P) : ∀ {v w : Value}, Lift (Endowed P) v w → P v
  | .list items, _, .list h => (transparent.list items).2 (transparent.of_lift_items h)
  | .function _, _, .function h => h.2
  | .boolean _, _, .boolean _ | .numeral _, _, .numeral _ | .string _, _, .string _
  | .date _, _, .date _ | .person _, _, .person _ | .void, _, .void => transparent.plain rfl

theorem of_lift_items (transparent : IsTransparent P) : ∀ {items others : List Value},
    Forall₂ (Lift (Endowed P)) items others → ∀ item ∈ items, P item
  | [], _, .nil => by simp
  | _ :: _, _, .cons h rest =>
    List.forall_mem_cons.2 ⟨transparent.of_lift h, transparent.of_lift_items rest⟩

end

/-- Primitives that only read make no functions. -/
theorem answer (transparent : IsTransparent P) {p : Primitive} {tree : FamilyTree}
    {dictionary : Dictionary} {today : Date} {arguments : List Value}
    (good : ∀ a ∈ arguments, P a) (h : p.answer tree dictionary today arguments = .ok v) : P v := by
  have result := p.answer_matches (fun _ => endowed_faithful) tree dictionary today
    (transparent.lift_items good)
  rw [h] at result
  cases result with
  | ok lifted => exact transparent.of_lift lifted

end Value.IsTransparent
end KinQuery
