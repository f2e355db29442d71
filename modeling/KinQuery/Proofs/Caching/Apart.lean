import KinQuery.Proofs.Evaluation.LambdaParts
import KinQuery.Proofs.Term.Expansion

/-! Terms whose parameters stand apart.

Some names are local: they are for parameters, and occur only where lambdas bind them. Then a
value that is put in place of a name is closed even when it is written out, since what is free
in it is no local name, and written out or not, substitution comes to the same. -/
namespace KinQuery

/-! ### Free names -/

namespace Term
variable {V : Type}

mutual

/-- The names that no lambda around them binds. Values are closed. -/
def free : Term V → List String
  | .atom text => [text]
  | .value _ => []
  | .compound [.atom "lambda", parameters, body] =>
    (free body).filter fun name => !parameters.declared.contains name
  | .compound parts => freeOfParts parts

def freeOfParts : List (Term V) → List String
  | [] => []
  | part :: parts => free part ++ freeOfParts parts

end

theorem mem_freeOfParts {parts : List (Term V)} {name : String} :
    name ∈ freeOfParts parts ↔ ∃ part ∈ parts, name ∈ part.free := by
  induction parts with
  | nil => simp [freeOfParts]
  | cons part parts ih => simp [freeOfParts, ih]

theorem mem_free_lambda {parameters body : Term V} {name : String} :
    name ∈ (compound [.atom "lambda", parameters, body]).free ↔
      name ∈ body.free ∧ name ∉ parameters.declared := by
  simp [free]

theorem mem_free_compound {parts : List (Term V)} {name : String}
    (notLambda : ∀ parameters body, parts ≠ [.atom "lambda", parameters, body]) :
    name ∈ (compound parts).free ↔ ∃ part ∈ parts, name ∈ part.free := by
  rw [← mem_freeOfParts]
  unfold free
  split
  · rename_i h
    cases h
  · rename_i h
    cases h
  · rename_i h
    cases h
    exact absurd rfl (notLambda _ _)
  · rename_i h
    cases h
    rfl

/-- What is free in a compound is free in a part. -/
theorem exists_mem_free {parts : List (Term V)} {name : String}
    (h : name ∈ (compound parts).free) : ∃ part ∈ parts, name ∈ part.free := by
  by_cases lambda : ∃ parameters body, parts = [.atom "lambda", parameters, body]
  · obtain ⟨parameters, body, rfl⟩ := lambda
    exact ⟨body, by simp, (mem_free_lambda.1 h).1⟩
  · exact (mem_free_compound fun parameters body same => lambda ⟨parameters, body, same⟩).1 h

/-- Where no free name stands for anything, substitution changes nothing. -/
theorem substitute_of_free {t : Term V} {bindings : Bindings V}
    (none : ∀ name ∈ t.free, bindings name = .none) : t.substitute bindings = t := by
  induction t using Term.induction generalizing bindings with
  | atom text =>
    rw [substitute, none text (by simp [free])]
  | value v => rw [substitute]
  | compound parts ih =>
    have result := substitute_compound bindings parts
    generalize (compound parts).substitute bindings = t at result
    cases result with
    | lambda parameters body =>
      rw [ih body (by simp) fun name inside => ?_]
      unfold Bindings.hide
      split
      · rfl
      · rename_i outside
        exact none name (mem_free_lambda.2 ⟨inside, by simpa using outside⟩)
    | define kept rest head =>
      have notLambda (parameters body : Term V) :
          kept ++ rest ≠ [.atom "lambda", parameters, body] := by
        cases kept with
        | nil => cases head
        | cons first kept =>
          cases head
          simp
      rw [List.map_congr_left fun part hpart => ?_, List.map_id']
      have member := List.mem_append_right kept hpart
      exact ih part member fun name inside =>
        none name ((mem_free_compound notLambda).2 ⟨part, member, inside⟩)
    | parts parts _ notLambda =>
      rw [List.map_congr_left fun part hpart => ?_, List.map_id']
      exact ih part hpart fun name inside =>
        none name ((mem_free_compound notLambda).2 ⟨part, hpart, inside⟩)

end Term

/-! ### Terms whose values hold no functions -/

/-- Primitives that only read, and whose answers hold no functions, whatever the arguments are. -/
def Primitive.yieldsPlain : Primitive → Bool
  | .list | .at | .join | .append | .head | .tail | .filter | .map | .putKinshipTerm => false
  | _ => true

/-- Of what the term comes to, one can see that it holds no functions: it is a literal, or comes
from primitives that make no functions. -/
inductive Term.YieldsPlain : Term Value → Prop
  | literal {text : String} : Kind.recognize text ≠ none → YieldsPlain (.atom text)
  | value {v : Value} : v.isPlain = true → YieldsPlain (.value v)
  | measure {p : Primitive} (arguments : List (Term Value)) : p.yieldsPlain = true →
      YieldsPlain (.compound (.atom p.name :: arguments))
  | collect {p : Primitive} {arguments : List (Term Value)} : p ≠ .filter → p ≠ .map →
      (∀ t ∈ arguments, YieldsPlain t) → YieldsPlain (.compound (.atom p.name :: arguments))

/-! ### Names apart -/

/-- The names that definitions and parameters may bear, and no primitive does. -/
def IsOpen (name : String) : Prop :=
  IsProper name ∧ Primitive.ofName? name = none

theorem IsOpen.ne_primitive {name : String} (opened : IsOpen name) (p : Primitive) :
    name ≠ p.name := by
  rintro rfl
  have free := opened.2
  rw [p.ofName?_name] at free
  cases free

theorem IsOpen.ne_form {name : String} (opened : IsOpen name) (form : SpecialForm) :
    name ≠ form.word := by
  rintro rfl
  have free := opened.1.2
  have keyword : isKeyword form.word = true := by cases form <;> decide
  rw [keyword] at free
  cases free

mutual

inductive Value.KeepsApart (isLocal : String → Prop) : Value → Prop
  | plain {v : Value} : (∀ items, v ≠ .list items) → (∀ f, v ≠ .function f) →
      Value.KeepsApart isLocal v
  | list {items : List Value} : (∀ item ∈ items, Value.KeepsApart isLocal item) →
      Value.KeepsApart isLocal (.list items)
  | primitive {p : Primitive} : p ≠ .equal → Value.KeepsApart isLocal (.function (.primitive p))
  | lambda {serial : Nat} {parameters : List String} {body : Term Value} :
      declareParameters [] (parameters.map .atom) = .ok parameters →
        (∀ name ∈ parameters, isLocal name) → Term.KeepsApart isLocal parameters body →
          Value.KeepsApart isLocal (.function (.lambda serial parameters body))

/-- Local names are for parameters alone, and occur only where they are bound. Functions are
compared only with values that hold none. -/
inductive Term.KeepsApart (isLocal : String → Prop) : List String → Term Value → Prop
  | atom {bound : List String} {text : String} : text ≠ Primitive.equal.name →
      (isLocal text → text ∈ bound) → Term.KeepsApart isLocal bound (.atom text)
  | value {bound : List String} {v : Value} : Value.KeepsApart isLocal v →
      Term.KeepsApart isLocal bound (.value v)
  | lambda {bound : List String} {parameters body : Term Value} : parameters.IsBare →
      (∀ name ∈ parameters.declared, IsProper name → isLocal name) →
        Term.KeepsApart isLocal (parameters.declared ++ bound) body →
          Term.KeepsApart isLocal bound (.compound [.atom "lambda", parameters, body])
  | define {bound : List String} {parts : List (Term Value)} :
      (∀ name ∈ parts.head?, Term.KeepsApart isLocal [] name) →
        (∀ part ∈ parts.tail, Term.KeepsApart isLocal bound part) →
          Term.KeepsApart isLocal bound (.compound (.atom "define" :: parts))
  | equal {bound : List String} {arguments : List (Term Value)} :
      (arguments.length = 2 → ∃ t ∈ arguments, t.YieldsPlain) →
        (∀ part ∈ arguments, Term.KeepsApart isLocal bound part) →
          Term.KeepsApart isLocal bound (.compound (.atom Primitive.equal.name :: arguments))
  | parts {bound : List String} {parts : List (Term Value)} :
      parts.head? ≠ some (.atom "define") →
        (∀ parameters body, parts ≠ [.atom "lambda", parameters, body]) →
          (∀ part ∈ parts, Term.KeepsApart isLocal bound part) →
            Term.KeepsApart isLocal bound (.compound parts)

end

variable {isLocal : String → Prop} {bound rest : List String} {t : Term Value} {v : Value}
  {parts : List (Term Value)} {text : String} {bindings : Bindings Value}

/-! ### Substitution keeps names apart -/

namespace Bindings

/-- Only open names stand for values. -/
def AreOpen (bindings : Bindings Value) : Prop :=
  ∀ name v, bindings name = some v → IsOpen name

theorem AreOpen.hide (names : List String) (h : bindings.AreOpen) : (bindings.hide names).AreOpen :=
  fun name v hv => h name v (Bindings.hide_eq_some hv)

/-- The names that a lambda binds stand for no values inside it, but are bound there. -/
theorem covered_hide (names : List String)
    (covered : ∀ name ∈ bound, isLocal name → name ∈ rest ∨ (bindings name).isSome) :
    ∀ name ∈ names ++ bound, isLocal name →
      name ∈ names ++ rest ∨ (bindings.hide names name).isSome := by
  intro name member here
  rw [List.mem_append] at member ⊢
  rw [hide]
  by_cases again : name ∈ names
  · exact .inl (.inl again)
  · rcases covered name (member.resolve_left again) here with still | given
    · exact .inl (.inr still)
    · exact .inr (by simpa [again] using given)

theorem AreOpen.primitive (h : bindings.AreOpen) (p : Primitive) : bindings p.name = .none := by
  cases hv : bindings p.name with
  | none => rfl
  | some v => exact absurd rfl ((h _ v hv).ne_primitive p)

theorem AreOpen.literal (h : bindings.AreOpen) (literal : Kind.recognize text ≠ .none) :
    bindings text = .none := by
  cases hv : bindings text with
  | none => rfl
  | some v =>
    obtain ⟨proper, -⟩ := h _ v hv
    exact absurd (Kind.recognize_reference proper.1 proper.2) literal

end Bindings

namespace Term

theorem name_ne_form (p : Primitive) (form : SpecialForm) : p.name ≠ form.word := by
  cases form <;> cases p <;> decide

theorem substitute_primitive (opened : bindings.AreOpen) (p : Primitive)
    (arguments : List (Term Value)) :
    (compound (.atom p.name :: arguments)).substitute bindings =
      compound (.atom p.name :: arguments.map (substitute bindings)) := by
  have notDefine : (.atom p.name :: arguments).head? ≠ some (.atom "define") := fun same =>
    name_ne_form p .define (Term.atom.inj (Option.some.inj same))
  have notLambda (parameters body : Term Value) :
      .atom p.name :: arguments ≠ [.atom "lambda", parameters, body] := fun same =>
    name_ne_form p .lambda (Term.atom.inj (List.cons.inj same).1)
  rw [substitute_parts _ notDefine notLambda, List.map_cons, substitute, opened.primitive]

theorem YieldsPlain.substitute (opened : bindings.AreOpen) (h : t.YieldsPlain) :
    (t.substitute bindings).YieldsPlain := by
  induction h with
  | literal literal =>
    rw [Term.substitute, opened.literal literal]
    exact .literal literal
  | value plain =>
    rw [Term.substitute]
    exact .value plain
  | measure arguments measure =>
    rw [substitute_primitive opened]
    exact .measure _ measure
  | collect notFilter notMap _ ih =>
    rw [substitute_primitive opened]
    refine .collect notFilter notMap fun t ht => ?_
    obtain ⟨argument, member, rfl⟩ := List.mem_map.1 ht
    exact ih argument member

/-- Once values are in place, only the names that stand for none may still be bound outside. -/
theorem KeepsApart.substitute (opened : bindings.AreOpen)
    (values : ∀ name v, bindings name = some v → v.KeepsApart isLocal)
    (covered : ∀ name ∈ bound, isLocal name → name ∈ rest ∨ (bindings name).isSome)
    (h : t.KeepsApart isLocal bound) : (t.substitute bindings).KeepsApart isLocal rest := by
  induction t using Term.induction generalizing bound rest bindings with
  | atom text =>
    cases h with
    | atom other inside =>
      rw [Term.substitute]
      split
      · rename_i v hv
        exact .value (values text v hv)
      · rename_i none
        refine .atom other fun here => ?_
        rcases covered text (inside here) here with still | given
        · exact still
        · rw [none] at given
          cases given
  | value v =>
    rw [Term.substitute]
    cases h with
    | value apart => exact .value apart
  | compound parts ih =>
    have each (parts' : List (Term Value)) (fewer : parts' ⊆ parts)
        (h : ∀ part ∈ parts', part.KeepsApart isLocal bound) :
        ∀ part ∈ parts'.map (Term.substitute bindings), part.KeepsApart isLocal rest := by
      intro part hpart
      obtain ⟨old, member, rfl⟩ := List.mem_map.1 hpart
      exact ih old (fewer member) opened values covered (h old member)
    cases h with
    | @lambda _ parameters body bare declared inside =>
      rw [Term.substitute]
      exact .lambda bare declared (ih body (by simp) (opened.hide _)
        (fun name v hv => values name v (Bindings.hide_eq_some hv))
        (Bindings.covered_hide _ covered) inside)
    | @define _ parts name others =>
      cases parts with
      | nil =>
        rw [Term.substitute]
        exact .define name (by simp)
      | cons first parts =>
        rw [Term.substitute, substituteParts_eq_map]
        exact .define name (each parts (by simp) others)
    | @equal _ arguments plain others =>
      rw [substitute_primitive opened]
      refine .equal (fun two => ?_) (each arguments (by simp) others)
      obtain ⟨t, member, yields⟩ := plain (by simpa using two)
      exact ⟨_, List.mem_map_of_mem member, yields.substitute opened⟩
    | parts notDefine notLambda others =>
      obtain ⟨notDefine', notLambda'⟩ := forms_map_substitute bindings notDefine notLambda
      rw [substitute_parts _ notDefine notLambda]
      exact .parts notDefine' notLambda' (each parts (List.Subset.refl _) others)

end Term
end KinQuery
