import KinQuery.Proofs.Caching.Written
import KinQuery.Proofs.Function.Plain
import KinQuery.Proofs.Session.Formed

/-! Tidy values and terms, which keys of the cache can be trusted to tell apart.

Their words mark no persons, their strings, dates and persons are plain, and the names of
parameters stand apart. Evaluation that neither adds to the dictionary nor reaches a registered
function makes tidy values of tidy terms. -/
namespace KinQuery

open List (Forall₂)

/-- A world, and names that are kept for parameters. -/
structure Convention where
  world : World
  plain : world.IsPlain
  isLocal : String → Prop
  opened : ∀ name, isLocal name → IsOpen name

/-- Words that neither mark persons in keys nor change the dictionary, and hold no digit of
another script. -/
structure IsTidyWord (text : String) : Prop where
  digits : Text.HasAsciiDigits text.toList
  not_put : text ≠ Primitive.putKinshipTerm.name
  not_mark : text.toList.head? ≠ some '#'

theorem isTidyWord_iff {text : String} : IsTidyWord text ↔
    Text.HasAsciiDigits text.toList ∧ text ≠ Primitive.putKinshipTerm.name ∧
      text.toList.head? ≠ some '#' :=
  ⟨fun h => ⟨h.digits, h.not_put, h.not_mark⟩, fun ⟨digits, put, mark⟩ => ⟨digits, put, mark⟩⟩

instance : DecidablePred IsTidyWord :=
  fun _ => decidable_of_iff' _ isTidyWord_iff

def Vocabulary.tidy (w : World) : Vocabulary where
  atom := IsTidyWord
  leaf := Value.IsPlainLeaf (· ≠ .putKinshipTerm) w
  lambda := True

structure Value.IsTidy (C : Convention) (v : Value) : Prop where
  formed : v.IsFormed
  obeys : v.Obeys (.tidy C.world)
  apart : v.KeepsApart C.isLocal

/-- The term is tidy where lambdas around it bind some names. -/
structure Term.IsTidy (C : Convention) (bound : List String) (t : Term Value) : Prop where
  formed : t.IsFormed
  obeys : t.Obeys (.tidy C.world)
  apart : t.KeepsApart C.isLocal bound

variable {C : Convention} {bound : List String} {v : Value} {t : Term Value} {items : List Value}
  {parts : List (Term Value)} {text : String} {isLocal : String → Prop} {f : Function Value}

theorem Vocabulary.tidy_within_legible {w : World} : (Vocabulary.tidy w).Within .legible where
  atom _ _ := trivial
  leaf v h := by
    cases v with
    | string s => exact h.1
    | date d => exact h
    | _ => trivial
  lambda := id

theorem Value.isTransparent_keepsApart : IsTransparent (Value.KeepsApart isLocal) where
  leaf v plain other := by
    cases v with
    | list items => exact absurd rfl (other items)
    | function f => simp [isPlain] at plain
    | _ => exact .plain (by simp) (by simp)
  list items := by
    refine ⟨fun h => ?_, .list⟩
    cases h with
    | plain noList _ => exact absurd rfl (noList _)
    | list each => exact each

namespace Value.IsTidy

theorem legible (h : v.IsTidy C) : v.Obeys .legible :=
  h.obeys.mono Vocabulary.tidy_within_legible

theorem isWord (h : v.IsTidy C) (atomic : v.IsAtomic) : v.IsWord :=
  h.apart.isWord h.legible atomic

theorem list_iff : (Value.list items).IsTidy C ↔ ∀ item ∈ items, item.IsTidy C := by
  refine ⟨fun h item member => ?_, fun h => ?_⟩
  · exact ⟨isFormed_list.1 h.formed item member, obeys_list.1 h.obeys item member,
      (isTransparent_keepsApart.list items).1 h.apart item member⟩
  · exact ⟨isFormed_list.2 fun item member => (h item member).formed,
      obeys_list.2 fun item member => (h item member).obeys,
      (isTransparent_keepsApart.list items).2 fun item member => (h item member).apart⟩

end Value.IsTidy

/-! ### Answers of primitives

Primitives do not look inside functions. So they answer tidy values as they would if all
functions in them were one primitive, and then their answers are plain. -/

/-- A function whose words and values are tidy, in place of which some other stands. -/
def InPlaceOf (w : World) (f _other : Function Value) : Prop :=
  (Value.function f).Obeys (.tidy w)

mutual

theorem Value.exists_plain {w : World} : ∀ {v : Value}, v.Obeys (.tidy w) →
    ∃ u, u.IsSpelled (fun _ => True) (fun _ => True) w ∧ Value.Lift (InPlaceOf w) v u
  | .list items, h => by
    obtain ⟨us, plain, lift⟩ := Value.exists_plain_items (Value.obeys_list.1 h)
    exact ⟨.list us, Value.obeys_list.2 plain, .list lift⟩
  | .function f, h =>
    ⟨.function (.primitive .list), Value.isSpelled_function.2 ⟨.list, rfl, trivial⟩, .function h⟩
  | .boolean b, _ => ⟨.boolean b, Value.isSpelled_boolean, .boolean b⟩
  | .numeral n, _ => ⟨.numeral n, Value.isSpelled_numeral, .numeral n⟩
  | .string s, h => ⟨.string s, Value.isSpelled_string.2 h, .string s⟩
  | .date d, h => ⟨.date d, Value.isSpelled_date.2 h, .date d⟩
  | .person p, h => ⟨.person p, Value.isSpelled_person.2 h, .person p⟩
  | .void, _ => ⟨.void, Value.isSpelled_void, .void⟩

theorem Value.exists_plain_items {w : World} : ∀ {items : List Value},
    (∀ item ∈ items, item.Obeys (.tidy w)) →
      ∃ us, (∀ u ∈ us, u.IsSpelled (fun _ => True) (fun _ => True) w) ∧
        Forall₂ (Value.Lift (InPlaceOf w)) items us
  | [], _ => ⟨[], by simp, .nil⟩
  | item :: items, h => by
    obtain ⟨first, rest⟩ := List.forall_mem_cons.1 h
    obtain ⟨u, plain, lift⟩ := Value.exists_plain first
    obtain ⟨us, plains, lifts⟩ := Value.exists_plain_items rest
    exact ⟨u :: us, List.forall_mem_cons.2 ⟨plain, plains⟩, .cons lift lifts⟩

end

section
variable {atom : String → Prop} {allowed : Primitive → Prop} {w : World}

mutual

/-- A value is tidy if its functions are, and what is not in them is plain. -/
theorem Value.obeys_of_lift : ∀ {v u : Value}, Value.Lift (InPlaceOf w) v u →
    u.IsSpelled atom allowed w → v.Obeys (.tidy w)
  | .list _, _, .list h, plain =>
    Value.obeys_list.2 (Value.obeys_of_lift_items h (Value.obeys_list.1 plain))
  | .function _, _, .function h, _ => h
  | .boolean _, _, .boolean _, _ | .numeral _, _, .numeral _, _ | .void, _, .void, _ => by
    simp [Value.Obeys, Vocabulary.tidy, Value.IsPlainLeaf]
  | .string _, _, .string _, plain => Value.isSpelled_string.1 plain
  | .date _, _, .date _, plain => Value.isSpelled_date.1 plain
  | .person _, _, .person _, plain => Value.isSpelled_person.1 plain

theorem Value.obeys_of_lift_items : ∀ {items us : List Value},
    Forall₂ (Value.Lift (InPlaceOf w)) items us → (∀ u ∈ us, u.IsSpelled atom allowed w) →
      ∀ item ∈ items, item.Obeys (.tidy w)
  | [], _, .nil, _ => by simp
  | _ :: _, _, .cons h rest, plain => by
    obtain ⟨first, others⟩ := List.forall_mem_cons.1 plain
    exact List.forall_mem_cons.2
      ⟨Value.obeys_of_lift h first, Value.obeys_of_lift_items rest others⟩

end
end

namespace Value.IsTidy

/-- A value without functions is tidy if it is plain. -/
theorem of_isPlain {atom : String → Prop} {allowed : Primitive → Prop} (plain : v.isPlain = true)
    (spelled : v.IsSpelled atom allowed C.world) : v.IsTidy C :=
  ⟨isTransparent_isFormed.plain plain, obeys_of_lift (.of_isPlain plain) spelled,
    isTransparent_keepsApart.plain plain⟩

theorem boolean (b : Bool) : (Value.boolean b).IsTidy C :=
  of_isPlain rfl
    (isSpelled_boolean : (Value.boolean b).IsSpelled (fun _ => True) (fun _ => True) _)

theorem void : Value.void.IsTidy C :=
  of_isPlain rfl (isSpelled_void : Value.void.IsSpelled (fun _ => True) (fun _ => True) _)

/-- Primitives that only read answer tidy values with tidy values. -/
theorem answer {p : Primitive} {arguments : List Value} (other : p ≠ .equal)
    (good : ∀ a ∈ arguments, a.IsTidy C)
    (h : p.answer C.world.tree C.world.dictionary C.world.today arguments = .ok v) : v.IsTidy C := by
  obtain ⟨us, plain, lift⟩ := exists_plain_items fun a ha => (good a ha).obeys
  have result := p.answer_matches (fun same => absurd same other) C.world.tree C.world.dictionary
    C.world.today lift
  have answered := p.answer_plain C.plain plain
  rw [h] at result
  generalize p.answer C.world.tree C.world.dictionary C.world.today us = r at result answered
  cases result with
  | ok lifted =>
    exact ⟨isTransparent_isFormed.answer (fun a ha => (good a ha).formed) h,
      obeys_of_lift lifted (answered _ rfl),
      isTransparent_keepsApart.answer (fun a ha => (good a ha).apart) h⟩

theorem primitive {p : Primitive} (other : p ≠ .equal) (pure : p ≠ .putKinshipTerm) :
    (Value.function (.primitive p)).IsTidy C :=
  ⟨isFormed_primitive p, pure, .primitive other⟩

/-- Of functions, only primitives and lambdas are tidy. -/
theorem function_cases (h : (Value.function f).IsTidy C) :
    (∃ p, f = .primitive p ∧ p ≠ .equal ∧ p ≠ .putKinshipTerm) ∨
      ∃ serial parameters body, f = .lambda serial parameters body ∧
        declareParameters [] (parameters.map .atom) = .ok parameters ∧
          (∀ name ∈ parameters, C.isLocal name) ∧ body.IsTidy C parameters := by
  obtain ⟨formed, obeys, apart⟩ := h
  cases apart with
  | plain _ noFunction => exact absurd rfl (noFunction f)
  | primitive other => exact .inl ⟨_, rfl, other, obeys⟩
  | lambda declared locals inside =>
    exact .inr ⟨_, _, _, rfl, declared, locals, (isFormed_lambda.1 formed).2,
      (obeys_lambda.1 obeys).2, inside⟩

theorem lambda {parameters : List String} {body : Term Value} (serial : Nat)
    (declared : declareParameters [] (parameters.map .atom) = .ok parameters)
    (locals : ∀ name ∈ parameters, C.isLocal name) (tidy : body.IsTidy C parameters) :
    (Value.function (.lambda serial parameters body)).IsTidy C :=
  ⟨isFormed_lambda.2 ⟨(declareParameters_eq_ok declared).2, tidy.formed⟩,
    obeys_lambda.2 ⟨trivial, tidy.obeys⟩, .lambda declared locals tidy.apart⟩

end Value.IsTidy

/-! ### Tidy terms -/

namespace Term.IsTidy

theorem legible (h : t.IsTidy C bound) : t.Obeys .legible :=
  h.obeys.mono Vocabulary.tidy_within_legible

theorem isBare (h : t.IsTidy C bound) : t.expand.IsBare :=
  isBare_expand h.formed h.legible

theorem value_iff : (Term.value v).IsTidy C bound ↔ v.IsTidy C := by
  refine ⟨fun h => ⟨isFormed_value.1 h.formed, obeys_value.1 h.obeys, ?_⟩, fun h =>
    ⟨isFormed_value.2 h.formed, obeys_value.2 h.obeys, .value h.apart⟩⟩
  cases h.apart with
  | value apart => exact apart

/-- A part is tidy where it stands apart. -/
theorem part {inner : List String} (h : (compound parts).IsTidy C bound) (member : t ∈ parts)
    (apart : t.KeepsApart C.isLocal inner) : t.IsTidy C inner :=
  ⟨isFormed_compound.1 h.formed t member, obeys_compound.1 h.obeys t member, apart⟩

/-- Tidy values in place of open names. -/
theorem substitute {bindings : Bindings Value} {rest : List String} (h : t.IsTidy C bound)
    (opened : bindings.AreOpen) (values : ∀ name v, bindings name = some v → v.IsTidy C)
    (covered : ∀ name ∈ bound, C.isLocal name → name ∈ rest ∨ (bindings name).isSome) :
    (t.substitute bindings).IsTidy C rest :=
  ⟨h.formed.substitute fun name v hv => (values name v hv).formed,
    h.obeys.substitute fun name v hv => (values name v hv).obeys,
    h.apart.substitute opened (fun name v hv => (values name v hv).apart) covered⟩

end Term.IsTidy
end KinQuery
