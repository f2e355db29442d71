import KinQuery.Proofs.Caching.Tidy
import KinQuery.Proofs.Evaluation.Spelled

/-! Values and terms that are written out alike.

Tidy values that are written out alike differ at most in the names of lambdas, and in what the
lambdas hold as values and what they spell. So they are the same for every primitive but the
one that compares functions. -/
namespace KinQuery

open List (Forall₂)

/-- Tidy values that are written out alike. -/
structure Value.Resembles (C : Convention) (v w : Value) : Prop where
  left : v.IsTidy C
  right : w.IsTidy C
  expand : v.expand = w.expand

/-- Tidy terms that are written out alike. -/
structure Term.Resembles (C : Convention) (t u : Term Value) : Prop where
  left : t.IsTidy C []
  right : u.IsTidy C []
  expand : t.expand = u.expand

/-- Functions that are written out alike. -/
def Function.Resembles (C : Convention) (f g : Function Value) : Prop :=
  (Value.function f).Resembles C (.function g)

variable {C : Convention} {v w u : Value} {t : Term Value} {items others : List Value}
  {f g : Function Value} {text : String} {p : Profile} {serial : Nat} {parameters : List String}
  {body : Term Value}

/-! ### What is written out in one way -/

namespace Value

theorem eq_list_of_expand {item : Value} (h : w.expand = (Value.list (item :: items)).expand) :
    ∃ other others, w = .list (other :: others) ∧
      (other :: others).map expand = (item :: items).map expand := by
  rcases w.isAtomic_or with atomic | ⟨other, others, rfl⟩ | ⟨q, rfl⟩ | ⟨serial, names, body, rfl⟩
  · rw [expand_of_isAtomic atomic, expand] at h
    cases h
  · simp only [expand, expandItems_eq_map] at h
    exact ⟨other, others, rfl, (List.cons.inj (Term.compound.inj h)).2⟩
  · simp [expand] at h
  · simp [expand] at h

theorem eq_person_of_expand (h : w.expand = (Value.person p).expand) :
    ∃ q, w = .person q ∧ q.id = p.id := by
  rcases w.isAtomic_or with atomic | ⟨other, others, rfl⟩ | ⟨q, rfl⟩ | ⟨serial, names, body, rfl⟩
  · rw [expand_of_isAtomic atomic, expand] at h
    cases h
  · simp [expand] at h
  · simp only [expand, Term.compound.injEq, List.cons.injEq, Term.atom.injEq, true_and,
      and_true] at h
    exact ⟨q, rfl, mark_injective h⟩
  · simp [expand] at h

theorem eq_lambda_of_expand
    (h : w.expand = (Value.function (.lambda serial parameters body)).expand) :
    ∃ serial' other, w = .function (.lambda serial' parameters other) ∧
      other.expand = body.expand := by
  rcases w.isAtomic_or with atomic | ⟨other, others, rfl⟩ | ⟨q, rfl⟩ | ⟨serial', names, other, rfl⟩
  · rw [expand_of_isAtomic atomic, expand] at h
    cases h
  · simp [expand] at h
  · simp [expand] at h
  · simp only [expand, Term.compound.injEq, List.cons.injEq, and_true, true_and] at h
    obtain rfl := List.map_injective_iff.2 (fun _ _ => Term.atom.inj) h.1
    exact ⟨serial', other, rfl, h.2⟩

namespace Resembles

theorem refl (tidy : v.IsTidy C) : v.Resembles C v :=
  ⟨tidy, tidy, rfl⟩

theorem symm (h : v.Resembles C w) : w.Resembles C v :=
  ⟨h.right, h.left, h.expand.symm⟩

theorem trans (h : v.Resembles C w) (h' : w.Resembles C u) : v.Resembles C u :=
  ⟨h.left, h'.right, h.expand.trans h'.expand⟩

/-- No two words are written alike. -/
theorem eq_of_isAtomic (h : v.Resembles C w) (atomic : v.IsAtomic) : w = v := by
  have expand := h.expand
  rw [expand_of_isAtomic atomic] at expand
  obtain ⟨atomic', key⟩ := isAtomic_of_expand expand.symm
  exact (h.right.isWord atomic').eq_of_key (h.left.isWord atomic) key

end Resembles
end Value

/-! ### Values that differ in their functions alone -/

mutual

/-- What is no function is the same in both. -/
theorem Value.Resembles.lift : ∀ {v w : Value}, v.Resembles C w →
    Value.Lift (Function.Resembles C) v w
  | .list (item :: items), w, h => by
    obtain ⟨other, others, rfl, same⟩ := Value.eq_list_of_expand h.expand.symm
    exact .list (Value.Resembles.lift_items (Value.IsTidy.list_iff.1 h.left)
      (Value.IsTidy.list_iff.1 h.right) same.symm)
  | .person p, w, h => by
    obtain ⟨q, rfl, same⟩ := Value.eq_person_of_expand h.expand.symm
    rw [C.plain.unique q p h.right.obeys h.left.obeys same]
    exact .person p
  | .function (.lambda serial parameters body), w, h => by
    obtain ⟨serial', other, rfl, -⟩ := Value.eq_lambda_of_expand h.expand.symm
    exact .function h
  | .function (.primitive p), w, h => by
    obtain rfl := h.eq_of_isAtomic trivial
    exact .function h
  | .list [], w, h => by
    obtain rfl := h.eq_of_isAtomic trivial
    exact .list .nil
  | .boolean b, w, h => by
    obtain rfl := h.eq_of_isAtomic trivial
    exact .boolean b
  | .numeral n, w, h => by
    obtain rfl := h.eq_of_isAtomic trivial
    exact .numeral n
  | .string s, w, h => by
    obtain rfl := h.eq_of_isAtomic trivial
    exact .string s
  | .date d, w, h => by
    obtain rfl := h.eq_of_isAtomic trivial
    exact .date d
  | .void, w, h => by
    obtain rfl := h.eq_of_isAtomic trivial
    exact .void
  | .function (.host f), w, h => by
    obtain rfl := h.eq_of_isAtomic trivial
    exact .function h

theorem Value.Resembles.lift_items : ∀ {items others : List Value},
    (∀ item ∈ items, item.IsTidy C) → (∀ item ∈ others, item.IsTidy C) →
      items.map Value.expand = others.map Value.expand →
        Forall₂ (Value.Lift (Function.Resembles C)) items others
  | [], [], _, _, _ => .nil
  | [], _ :: _, _, _, h => by cases h
  | _ :: _, [], _, _, h => by cases h
  | item :: items, other :: others, left, right, h => by
    obtain ⟨first, rest⟩ := List.forall_mem_cons.1 left
    obtain ⟨first', rest'⟩ := List.forall_mem_cons.1 right
    obtain ⟨same, sames⟩ := List.cons.inj h
    exact .cons (Value.Resembles.lift ⟨first, first', same⟩)
      (Value.Resembles.lift_items rest rest' sames)

end

mutual

theorem Value.Lift.expand : ∀ {v w : Value}, Value.Lift (Function.Resembles C) v w →
    v.expand = w.expand
  | .list [], _, .list .nil => rfl
  | .list (_ :: _), _, .list (.cons h rest) => by
    rw [Value.expand, Value.expand, h.expand, Value.Lift.expand_items rest]
  | .function _, _, .function h => h.expand
  | .boolean _, _, .boolean _ | .numeral _, _, .numeral _ | .string _, _, .string _
  | .date _, _, .date _ | .person _, _, .person _ | .void, _, .void => rfl

theorem Value.Lift.expand_items : ∀ {items others : List Value},
    Forall₂ (Value.Lift (Function.Resembles C)) items others →
      Value.expandItems items = Value.expandItems others
  | [], _, .nil => rfl
  | _ :: _, _, .cons h rest => by
    rw [Value.expandItems, Value.expandItems, h.expand, Value.Lift.expand_items rest]

end

namespace Value.Resembles

theorem forall₂_of_lift (left : ∀ item ∈ items, item.IsTidy C)
    (right : ∀ item ∈ others, item.IsTidy C)
    (h : Forall₂ (Value.Lift (Function.Resembles C)) items others) :
    Forall₂ (Value.Resembles C) items others := by
  rw [List.forall₂_iff_zip] at h ⊢
  refine ⟨h.1, fun {item other} pair => ?_⟩
  obtain ⟨member, member'⟩ := List.of_mem_zip pair
  exact ⟨left item member, right other member', (h.2 pair).expand⟩

theorem tidy_items (h : Forall₂ (Value.Resembles C) items others) :
    (∀ item ∈ items, item.IsTidy C) ∧ ∀ item ∈ others, item.IsTidy C := by
  induction h with
  | nil => simp
  | cons first _ ih =>
    exact ⟨List.forall_mem_cons.2 ⟨first.left, ih.1⟩, List.forall_mem_cons.2 ⟨first.right, ih.2⟩⟩

theorem list_iff :
    (Value.list items).Resembles C (.list others) ↔ Forall₂ (Value.Resembles C) items others := by
  constructor
  · intro h
    have left := IsTidy.list_iff.1 h.left
    have right := IsTidy.list_iff.1 h.right
    cases h.lift with
    | list lift => exact forall₂_of_lift left right lift
  · intro h
    obtain ⟨left, right⟩ := tidy_items h
    exact ⟨IsTidy.list_iff.2 left, IsTidy.list_iff.2 right,
      Value.Lift.expand (.list (h.imp fun _ _ => lift))⟩

/-- Values without functions are the same. -/
theorem eq_of_isPlain (h : v.Resembles C w) (plain : v.isPlain = true) : w = v :=
  h.lift.eq_of_isPlain plain

end Value.Resembles

/-! ### Functions -/

/-- Functions that resemble each other are one primitive, or lambdas with bodies written alike. -/
inductive Function.Counterpart (C : Convention) : Function Value → Function Value → Prop
  | primitive {p : Primitive} : p ≠ .equal → p ≠ .putKinshipTerm →
      Counterpart C (.primitive p) (.primitive p)
  | lambda (serial serial' : Nat) {parameters : List String} {body other : Term Value} :
      (∀ name ∈ parameters, C.isLocal name) → body.IsTidy C parameters →
        other.IsTidy C parameters → body.expand = other.expand →
          Counterpart C (.lambda serial parameters body) (.lambda serial' parameters other)

theorem Function.Resembles.counterpart (h : f.Resembles C g) : f.Counterpart C g := by
  rcases h.left.function_cases with
    ⟨p, rfl, other, pure⟩ | ⟨serial, names, body, rfl, _, locals, tidy⟩
  · cases h.eq_of_isAtomic trivial
    exact .primitive other pure
  · obtain ⟨serial', other, same, expand⟩ := Value.eq_lambda_of_expand h.expand.symm
    cases same
    rcases h.right.function_cases with ⟨p, same, -⟩ | ⟨_, _, _, same, _, _, tidy'⟩
    · cases same
    · cases same
      exact .lambda serial serial' locals tidy tidy' expand.symm

theorem Function.Resembles.primitive {p : Primitive} (other : p ≠ .equal)
    (pure : p ≠ .putKinshipTerm) : (Function.primitive p).Resembles C (.primitive p) :=
  .refl (.primitive other pure)

theorem Value.Resembles.lambda (serial serial' : Nat) {other : Term Value}
    (declared : declareParameters [] (parameters.map .atom) = .ok parameters)
    (locals : ∀ name ∈ parameters, C.isLocal name) (tidy : body.IsTidy C parameters)
    (tidy' : other.IsTidy C parameters) (written : body.expand = other.expand) :
    (Value.function (.lambda serial parameters body)).Resembles C
      (.function (.lambda serial' parameters other)) :=
  ⟨.lambda serial declared locals tidy, .lambda serial' declared locals tidy', by
    rw [Value.expand, Value.expand, written]⟩

theorem Function.Counterpart.arity (h : f.Counterpart C g) : f.arity = g.arity := by
  cases h <;> rfl

/-! ### Comparing values -/

mutual

/-- Functions are no part of the comparison if one of the values holds none. -/
theorem Value.Lift.same_of_isPlain {F : Function Value → Function Value → Prop} :
    ∀ {u v w : Value}, u.isPlain = true → Value.Lift F v w →
      u.same v = u.same w ∧ v.same u = w.same u
  | .list items, _, _, plain, .list h => by
    rw [Value.isPlain] at plain
    simpa only [Value.same] using Value.Lift.sameItems_of_arePlain plain h
  | .function _, _, _, plain, _ => by simp [Value.isPlain] at plain
  | .list _, _, _, _, .boolean _ | .list _, _, _, _, .numeral _ | .list _, _, _, _, .string _
  | .list _, _, _, _, .date _ | .list _, _, _, _, .person _ | .list _, _, _, _, .function _
  | .list _, _, _, _, .void => ⟨rfl, rfl⟩
  | .boolean _, _, _, _, h | .numeral _, _, _, _, h | .string _, _, _, _, h | .date _, _, _, _, h
  | .person _, _, _, _, h | .void, _, _, _, h => by cases h <;> exact ⟨rfl, rfl⟩

theorem Value.Lift.sameItems_of_arePlain {F : Function Value → Function Value → Prop} :
    ∀ {us vs ws : List Value}, Value.arePlain us = true → Forall₂ (Value.Lift F) vs ws →
      Value.sameItems us vs = Value.sameItems us ws ∧ Value.sameItems vs us = Value.sameItems ws us
  | [], _, _, _, .nil | [], _, _, _, .cons _ _ | _ :: _, _, _, _, .nil => ⟨rfl, rfl⟩
  | u :: us, _, _, plain, .cons h rest => by
    simp only [Value.arePlain, Bool.and_eq_true] at plain
    obtain ⟨first, first'⟩ := Value.Lift.same_of_isPlain plain.1 h
    obtain ⟨others, others'⟩ := Value.Lift.sameItems_of_arePlain plain.2 rest
    simp only [Value.sameItems, first, first', others, others', and_self]

end

/-- Values that resemble each other compare alike, if on one side no functions are compared. -/
theorem Value.Resembles.same_eq {v' w' : Value} (h : v.Resembles C w) (h' : v'.Resembles C w')
    (plain : v.isPlain = true ∨ v'.isPlain = true) : v.same v' = w.same w' := by
  rcases plain with plain | plain
  · rw [h.eq_of_isPlain plain, (h'.lift.same_of_isPlain plain).1]
  · rw [h'.eq_of_isPlain plain, (h.lift.same_of_isPlain plain).2]

end KinQuery
