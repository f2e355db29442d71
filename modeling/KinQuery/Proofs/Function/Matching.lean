import KinQuery.Function.Arguments
import Mathlib.Data.List.Forall2

/-! Values that differ in their functions alone, and results that match.

A relation between functions extends to values: lists are compared item by item, everything
else that is no function has to be the same. Two results match if both are values in a relation
or both are failures of one class; what a failure says about a value may differ. -/
namespace KinQuery

open List (Forall₂)

variable {α β γ δ : Type}

inductive Matches (A : α → β → Prop) : Except Failure α → Except Failure β → Prop
  | ok {a : α} {b : β} : A a b → Matches A (.ok a) (.ok b)
  | error {f g : Failure} : f.failureClass = g.failureClass → Matches A (.error f) (.error g)

namespace Matches

theorem refl {A : α → α → Prop} (same : ∀ a, A a a) : ∀ r, Matches A r r
  | .ok a => .ok (same a)
  | .error _ => .error rfl

theorem mono {A B : α → β → Prop} (weaker : ∀ a b, A a b → B a b) {r : Except Failure α}
    {q : Except Failure β} (h : Matches A r q) : Matches B r q := by
  cases h with
  | ok hab => exact .ok (weaker _ _ hab)
  | error same => exact .error same

theorem strengthen {A B : α → β → Prop} {r : Except Failure α} {q : Except Failure β}
    (h : Matches A r q) (more : ∀ a b, r = .ok a → q = .ok b → A a b → B a b) : Matches B r q := by
  cases h with
  | ok hab => exact .ok (more _ _ rfl rfl hab)
  | error same => exact .error same

theorem bind {A : α → β → Prop} {B : γ → δ → Prop} {r : Except Failure α}
    {q : Except Failure β} {f : α → Except Failure γ} {g : β → Except Failure δ}
    (first : Matches A r q) (next : ∀ a b, A a b → Matches B (f a) (g b)) :
    Matches B (r >>= f) (q >>= g) := by
  cases first with
  | ok hab => exact next _ _ hab
  | error same => exact .error same

theorem mapM {A : α → β → Prop} {B : γ → δ → Prop} {f : α → Except Failure γ}
    {g : β → Except Failure δ} (each : ∀ a b, A a b → Matches B (f a) (g b)) {as : List α}
    {bs : List β} (h : Forall₂ A as bs) : Matches (Forall₂ B) (as.mapM f) (bs.mapM g) := by
  induction h with
  | nil => exact .ok .nil
  | cons hab _ ih =>
    rw [List.mapM_cons, List.mapM_cons]
    refine (each _ _ hab).bind fun c d hcd => ?_
    exact ih.bind fun cs ds hrest => .ok (.cons hcd hrest)

end Matches

namespace Value

/-- A relation between functions, extended to values. -/
inductive Lift (F : Function Value → Function Value → Prop) : Value → Value → Prop
  | boolean (b : Bool) : Lift F (.boolean b) (.boolean b)
  | numeral (n : Numeral) : Lift F (.numeral n) (.numeral n)
  | string (s : String) : Lift F (.string s) (.string s)
  | date (d : Date) : Lift F (.date d) (.date d)
  | list {items others : List Value} : Forall₂ (Lift F) items others →
      Lift F (.list items) (.list others)
  | person (p : Profile) : Lift F (.person p) (.person p)
  | function {f g : Function Value} : F f g → Lift F (.function f) (.function g)
  | void : Lift F .void .void

/-- What primitives may see of a function: its name and how many arguments it takes. -/
structure Faithful (F : Function Value → Function Value → Prop) : Prop where
  name : ∀ {f g}, F f g → f.name = g.name
  arity : ∀ {f g}, F f g → f.arity = g.arity

mutual

/-- No function occurs in the value, at any depth of lists. -/
def isPlain : Value → Bool
  | .list items => arePlain items
  | .function _ => false
  | _ => true

def arePlain : List Value → Bool
  | [] => true
  | item :: items => isPlain item && arePlain items

end

variable {F G : Function Value → Function Value → Prop}

mutual

theorem Lift.mono (weaker : ∀ f g, F f g → G f g) : ∀ {v w : Value}, Lift F v w → Lift G v w
  | .list _, _, .list h => .list (Lift.mono_list weaker h)
  | .function f, _, .function h => .function (weaker f _ h)
  | _, _, .boolean b => .boolean b
  | _, _, .numeral n => .numeral n
  | _, _, .string s => .string s
  | _, _, .date d => .date d
  | _, _, .person p => .person p
  | _, _, .void => .void

theorem Lift.mono_list (weaker : ∀ f g, F f g → G f g) :
    ∀ {items others : List Value}, Forall₂ (Lift F) items others →
      Forall₂ (Lift G) items others
  | [], _, .nil => .nil
  | _ :: _, _, .cons first rest => .cons (Lift.mono weaker first) (Lift.mono_list weaker rest)

end

mutual

theorem Lift.eq_of_isPlain : ∀ {v w : Value}, Lift F v w → v.isPlain = true → w = v
  | .list items, _, .list h, plain => by
    rw [Lift.eq_of_arePlain h (by simpa [isPlain] using plain)]
  | .boolean _, _, .boolean _, _ => rfl
  | .numeral _, _, .numeral _, _ => rfl
  | .string _, _, .string _, _ => rfl
  | .date _, _, .date _, _ => rfl
  | .person _, _, .person _, _ => rfl
  | .void, _, .void, _ => rfl
  | .function _, _, .function _, plain => by simp [isPlain] at plain

theorem Lift.eq_of_arePlain :
    ∀ {items others : List Value}, Forall₂ (Lift F) items others →
      arePlain items = true → others = items
  | [], _, .nil, _ => rfl
  | item :: items, _, .cons h rest, plain => by
    simp only [arePlain, Bool.and_eq_true] at plain
    rw [Lift.eq_of_isPlain h plain.1, Lift.eq_of_arePlain rest plain.2]

end

end Value
end KinQuery
