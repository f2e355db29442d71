import KinQuery.Proofs.Evaluation.Primitives
import KinQuery.Proofs.Term.Reading

/-! The functions that occur in values and terms, at any depth of lists, of compounds and of the
bodies of lambdas. Substitution brings in those of the values that it puts in place and no others,
and in what was just read there are none. -/
namespace KinQuery

variable {f : Function Value} {v : Value} {items : List Value} {parts : List (Term Value)}
  {serial : Nat} {parameters : List String} {body t : Term Value} {query : String}

mutual

/-- The functions in a value, itself included. A lambda comes before those in its body. -/
def Value.allFunctions : Value → List (Function Value)
  | .list items => Value.allFunctionsOf items
  | .function (.primitive p) => [.primitive p]
  | .function (.host h) => [.host h]
  | .function (.lambda serial parameters body) =>
    .lambda serial parameters body :: body.allFunctions
  | _ => []

def Value.allFunctionsOf : List Value → List (Function Value)
  | [] => []
  | item :: items => item.allFunctions ++ Value.allFunctionsOf items

def Term.allFunctions : Term Value → List (Function Value)
  | .atom _ => []
  | .value v => v.allFunctions
  | .compound parts => Term.allFunctionsOf parts

def Term.allFunctionsOf : List (Term Value) → List (Function Value)
  | [] => []
  | part :: parts => part.allFunctions ++ Term.allFunctionsOf parts

end

theorem Value.allFunctionsOf_eq_flatMap (items : List Value) :
    Value.allFunctionsOf items = items.flatMap Value.allFunctions := by
  induction items with
  | nil => rfl
  | cons item items ih => rw [Value.allFunctionsOf, ih, List.flatMap_cons]

theorem Term.allFunctionsOf_eq_flatMap (parts : List (Term Value)) :
    Term.allFunctionsOf parts = parts.flatMap Term.allFunctions := by
  induction parts with
  | nil => rfl
  | cons part parts ih => rw [Term.allFunctionsOf, ih, List.flatMap_cons]

namespace Value

theorem mem_allFunctions_list :
    f ∈ (Value.list items).allFunctions ↔ ∃ item ∈ items, f ∈ item.allFunctions := by
  rw [allFunctions, allFunctionsOf_eq_flatMap, List.mem_flatMap]

theorem mem_allFunctions_lambda :
    f ∈ (Value.function (.lambda serial parameters body)).allFunctions ↔
      f = .lambda serial parameters body ∨ f ∈ body.allFunctions := by
  rw [allFunctions, List.mem_cons]

theorem mem_allFunctions_function (f : Function Value) : f ∈ (Value.function f).allFunctions := by
  cases f with
  | primitive p => exact List.mem_singleton_self _
  | host h => exact List.mem_singleton_self _
  | lambda serial parameters body => exact mem_allFunctions_lambda.2 (.inl rfl)

/-- What is asked of all functions in a value says nothing of values without any. -/
theorem isTransparent_allFunctions (P : Function Value → Prop) :
    IsTransparent fun v => ∀ f ∈ v.allFunctions, P f where
  list items := by
    simp only [mem_allFunctions_list]
    exact ⟨fun each item hitem f hf => each f ⟨item, hitem, hf⟩,
      fun each f ⟨item, hitem, hf⟩ => each item hitem f hf⟩
  leaf v plain other := by
    cases v with
    | list items => exact absurd rfl (other items)
    | function f => simp [isPlain] at plain
    | _ => simp [allFunctions]

end Value

namespace Term

theorem mem_allFunctions_compound :
    f ∈ (Term.compound parts).allFunctions ↔ ∃ part ∈ parts, f ∈ part.allFunctions := by
  rw [allFunctions, allFunctionsOf_eq_flatMap, List.mem_flatMap]

/-- Substitution brings in the functions of the values that are put in place. -/
theorem mem_allFunctions_substitute {bindings : Bindings Value}
    (h : f ∈ (t.substitute bindings).allFunctions) :
    f ∈ t.allFunctions ∨ ∃ name v, bindings name = some v ∧ f ∈ v.allFunctions := by
  induction t using Term.induction generalizing bindings with
  | atom text =>
    rw [substitute] at h
    split at h
    · rename_i v hv
      rw [allFunctions] at h
      exact .inr ⟨text, v, hv, h⟩
    · exact .inl h
  | value v =>
    rw [substitute] at h
    exact .inl h
  | compound parts ih =>
    have old {part : Term Value} (hpart : part ∈ parts) (hf : f ∈ part.allFunctions) :
        f ∈ (Term.compound parts).allFunctions :=
      mem_allFunctions_compound.2 ⟨part, hpart, hf⟩
    have each {part : Term Value} (hpart : part ∈ parts)
        (hf : f ∈ (part.substitute bindings).allFunctions) :=
      (ih part hpart hf).imp_left (old hpart)
    have result := substitute_compound bindings parts
    generalize (Term.compound parts).substitute bindings = t at h result
    cases result with
    | lambda parameters body =>
      obtain ⟨part, hpart, hf⟩ := mem_allFunctions_compound.1 h
      simp only [List.mem_cons, List.not_mem_nil, or_false] at hpart
      rcases hpart with rfl | rfl | rfl
      · exact .inl (old (by simp) hf)
      · exact .inl (old (by simp) hf)
      · rcases ih body (by simp) hf with within | ⟨name, v, hv, within⟩
        · exact .inl (old (by simp) within)
        · exact .inr ⟨name, v, Bindings.hide_eq_some hv, within⟩
    | define kept parts _ =>
      obtain ⟨part, hpart, hf⟩ := mem_allFunctions_compound.1 h
      rcases List.mem_append.1 hpart with hkept | hrest
      · exact .inl (old (List.mem_append_left _ hkept) hf)
      · obtain ⟨before, hbefore, rfl⟩ := List.mem_map.1 hrest
        exact each (List.mem_append_right _ hbefore) hf
    | parts parts _ _ =>
      obtain ⟨part, hpart, hf⟩ := mem_allFunctions_compound.1 h
      obtain ⟨before, hbefore, rfl⟩ := List.mem_map.1 hpart
      exact each hbefore hf

/-- What was read holds no functions. -/
theorem not_mem_allFunctions_of_readQuery (h : readQuery query = .ok t) : f ∉ t.allFunctions := by
  refine readQuery_induction (P := fun t => f ∉ t.allFunctions) (fun cs _ => ?_)
    (fun parts each => ?_) h
  · simp [allFunctions]
  · rw [mem_allFunctions_compound]
    rintro ⟨part, hpart, hf⟩
    exact each part hpart hf

end Term
end KinQuery
