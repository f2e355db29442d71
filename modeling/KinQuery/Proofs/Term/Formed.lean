import KinQuery.Proofs.Evaluation.Literal
import KinQuery.Proofs.Function.Host
import KinQuery.Proofs.Term.Reading

/-! Formed values and terms: what queries can bring about, in words, parameters and registered
functions. What is put into a formed term leaves it formed if it is formed itself. -/
namespace KinQuery

variable {h : HostFunction} {arguments : List Value} {query : String}

mutual

/-- The words in it could have been read, parameters bear proper names, and registered functions
bear proper names and leave caching as it is. -/
def Value.IsFormed : Value → Prop
  | .list items => Value.AreFormed items
  | .function (.host h) => IsProper h.name ∧ h.action.isPassive = true
  | .function (.lambda _ parameters body) => (∀ name ∈ parameters, IsProper name) ∧ body.IsFormed
  | _ => True

def Value.AreFormed : List Value → Prop
  | [] => True
  | item :: items => item.IsFormed ∧ Value.AreFormed items

def Term.IsFormed : Term Value → Prop
  | .atom text => IsAtomText text.toList
  | .value v => v.IsFormed
  | .compound parts => Term.AreFormed parts

def Term.AreFormed : List (Term Value) → Prop
  | [] => True
  | part :: parts => part.IsFormed ∧ Term.AreFormed parts

end

theorem Value.areFormed_iff {items : List Value} :
    Value.AreFormed items ↔ ∀ item ∈ items, item.IsFormed := by
  induction items with
  | nil => simp [Value.AreFormed]
  | cons item items ih => simp [Value.AreFormed, ih]

theorem Term.areFormed_iff {parts : List (Term Value)} :
    Term.AreFormed parts ↔ ∀ part ∈ parts, part.IsFormed := by
  induction parts with
  | nil => simp [Term.AreFormed]
  | cons part parts ih => simp [Term.AreFormed, ih]

@[simp] theorem Value.isFormed_list {items : List Value} :
    (Value.list items).IsFormed ↔ ∀ item ∈ items, item.IsFormed := by
  rw [Value.IsFormed, Value.areFormed_iff]

@[simp] theorem Value.isFormed_host :
    (Value.function (.host h)).IsFormed ↔ IsProper h.name ∧ h.action.isPassive = true := by
  rw [Value.IsFormed]

@[simp] theorem Value.isFormed_lambda {serial : Nat} {parameters : List String}
    {body : Term Value} :
    (Value.function (.lambda serial parameters body)).IsFormed ↔
      (∀ name ∈ parameters, IsProper name) ∧ body.IsFormed := by
  rw [Value.IsFormed]

@[simp] theorem Term.isFormed_value {v : Value} : (Term.value v).IsFormed ↔ v.IsFormed := by
  rw [Term.IsFormed]

@[simp] theorem Term.isFormed_compound {parts : List (Term Value)} :
    (Term.compound parts).IsFormed ↔ ∀ part ∈ parts, part.IsFormed := by
  rw [Term.IsFormed, Term.areFormed_iff]

theorem Value.isFormed_primitive (p : Primitive) : (Value.function (.primitive p)).IsFormed := by
  simp [Value.IsFormed]

theorem Term.IsFormed.substitute {t : Term Value} {bindings : Bindings Value} (formed : t.IsFormed)
    (values : ∀ name v, bindings name = some v → v.IsFormed) :
    (t.substitute bindings).IsFormed := by
  induction t using Term.induction generalizing bindings with
  | atom text =>
    unfold Term.substitute
    split
    · rename_i v hv
      exact Term.isFormed_value.2 (values text v hv)
    · exact formed
  | value v => rwa [Term.substitute]
  | compound parts ih =>
    rw [Term.isFormed_compound] at formed
    have each (part : Term Value) (hpart : part ∈ parts) : (part.substitute bindings).IsFormed :=
      ih part hpart (formed part hpart) values
    have result := Term.substitute_compound bindings parts
    generalize (Term.compound parts).substitute bindings = t at result
    cases result with
    | lambda parameters body =>
      have inside : (body.substitute (bindings.hide parameters.declared)).IsFormed :=
        ih body (by simp) (formed body (by simp)) fun name v hv =>
          values name v (Bindings.hide_eq_some hv)
      have head := formed (.atom "lambda") (by simp)
      have declared := formed parameters (by simp)
      simp [head, declared, inside]
    | define kept parts _ =>
      simp only [Term.isFormed_compound, List.mem_append, List.mem_map]
      rintro part (hkept | ⟨part, hpart, rfl⟩)
      · exact formed part (List.mem_append_left _ hkept)
      · exact each part (List.mem_append_right _ hpart)
    | parts parts => simpa using each

theorem Value.IsFormed.body {serial : Nat} {parameters : List String} {body : Term Value}
    (formed : (Value.function (.lambda serial parameters body)).IsFormed)
    (good : ∀ v ∈ arguments, v.IsFormed) :
    (body.substitute (Bindings.ofList (parameters.zip arguments))).IsFormed := by
  refine (Value.isFormed_lambda.1 formed).2.substitute fun name v hv => ?_
  exact good v (List.of_mem_zip (Bindings.mem_of_ofList hv)).2

/-- What is read is formed. -/
theorem isFormed_of_readQuery {t : Term Value} (h : readQuery query = .ok t) : t.IsFormed := by
  refine readQuery_induction (fun cs hcs => ?_) (fun parts each => ?_) h
  · simpa [Term.IsFormed] using hcs
  · exact Term.isFormed_compound.2 each

end KinQuery
