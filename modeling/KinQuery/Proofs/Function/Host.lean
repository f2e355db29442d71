import KinQuery.Function.Host
import KinQuery.Proofs.Function.Matching

/-! Registered functions that compute cannot look inside functions: arguments that differ in
their functions alone have results that differ in their functions alone. -/
namespace KinQuery

open List (Forall₂)

variable {F : Function Value → Function Value → Prop} {candidates others : List (Function Value)}

/-- Whether a registered function leaves caching as it is. -/
def HostAction.isPassive : HostAction → Bool
  | .toggle => false
  | _ => true

namespace Value

mutual

theorem Lift.datum_eq (faithful : Faithful F) : ∀ {v w : Value}, Lift F v w → v.datum = w.datum
  | .list _, _, .list h => congrArg Datum.list (Lift.data_eq faithful h)
  | .function _, _, .function h => by
    rw [datum, datum, faithful.name h, faithful.arity h]
  | .boolean _, _, .boolean _ | .numeral _, _, .numeral _ | .string _, _, .string _
  | .date _, _, .date _ | .person _, _, .person _ | .void, _, .void => rfl

theorem Lift.data_eq (faithful : Faithful F) :
    ∀ {items others : List Value}, Forall₂ (Lift F) items others → data items = data others
  | [], _, .nil => rfl
  | _ :: _, _, .cons first rest => by
    rw [data, data, Lift.datum_eq faithful first, Lift.data_eq faithful rest]

end

mutual

theorem Lift.functions : ∀ {v w : Value}, Lift F v w → Forall₂ F v.functions w.functions
  | .list _, _, .list h => Lift.functionsOf h
  | .function _, _, .function h => .cons h .nil
  | .boolean _, _, .boolean _ | .numeral _, _, .numeral _ | .string _, _, .string _
  | .date _, _, .date _ | .person _, _, .person _ | .void, _, .void => .nil

theorem Lift.functionsOf : ∀ {items others : List Value}, Forall₂ (Lift F) items others →
    Forall₂ F (functionsOf items) (functionsOf others)
  | [], _, .nil => .nil
  | _ :: _, _, .cons first rest => List.rel_append (Lift.functions first) (Lift.functionsOf rest)

end

end Value

theorem find?_name_matches (faithful : Value.Faithful F) (h : Forall₂ F candidates others)
    (name : String) :
    (candidates.find? (·.name = name) = none ∧ others.find? (·.name = name) = none) ∨
      ∃ f g, candidates.find? (·.name = name) = some f ∧ others.find? (·.name = name) = some g ∧
        F f g := by
  induction h with
  | nil => exact .inl ⟨rfl, rfl⟩
  | @cons f g candidates others first _ ih =>
    by_cases same : f.name = name
    · have same' : g.name = name := faithful.name first ▸ same
      exact .inr ⟨f, g, by simp [same], by simp [same'], first⟩
    · have other : ¬g.name = name := faithful.name first ▸ same
      simp only [List.find?_cons, same, other, decide_false]
      exact ih

namespace Datum

mutual

theorem value_lift (faithful : Value.Faithful F) (h : Forall₂ F candidates others) :
    ∀ d : Datum, Value.Lift F (d.value candidates) (d.value others)
  | .list items => .list (values_lift faithful h items)
  | .function name _ => by
    rw [value, value]
    rcases find?_name_matches faithful h name with ⟨none, none'⟩ | ⟨f, g, some, some', related⟩
    · rw [none, none']
      exact .void
    · rw [some, some']
      exact .function related
  | .boolean b => .boolean b
  | .numeral n => .numeral n
  | .string s => .string s
  | .date d => .date d
  | .person p => .person p
  | .void => .void

theorem values_lift (faithful : Value.Faithful F) (h : Forall₂ F candidates others) :
    ∀ items : List Datum, Forall₂ (Value.Lift F) (values candidates items) (values others items)
  | [] => .nil
  | item :: items => .cons (value_lift faithful h item) (values_lift faithful h items)

end

end Datum

/-- What a registered function computes from related arguments is related. -/
theorem HostAction.computed_matches (faithful : Value.Faithful F)
    (f : List Datum → Except Failure Datum) {vs ws : List Value}
    (h : Forall₂ (Value.Lift F) vs ws) :
    Matches (Value.Lift F) (computed f vs) (computed f ws) := by
  rw [computed, computed, Value.Lift.data_eq faithful h]
  cases f (Value.data ws) with
  | error failure => exact .error rfl
  | ok d => exact .ok (Datum.value_lift faithful (Value.Lift.functionsOf h) d)

end KinQuery
