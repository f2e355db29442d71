import KinQuery.Evaluation.Basic
import KinQuery.Proofs.Function.Matching
import KinQuery.Proofs.Term.Substitution

/-! What values and terms are made of.

A vocabulary says which atoms a term may hold, which values may stand at its leaves, and
whether there may be lambdas. Substitution of values of a vocabulary keeps to it. -/
namespace KinQuery

open List (Forall₂)

structure Vocabulary where
  atom : String → Prop
  /-- Of values that are neither lists nor lambdas. -/
  leaf : Value → Prop
  lambda : Prop

mutual

def Value.Obeys (g : Vocabulary) : Value → Prop
  | .list items => Value.AllObey g items
  | .function (.lambda _ _ body) => g.lambda ∧ Term.Obeys g body
  | v => g.leaf v

def Value.AllObey (g : Vocabulary) : List Value → Prop
  | [] => True
  | item :: items => Value.Obeys g item ∧ Value.AllObey g items

def Term.Obeys (g : Vocabulary) : Term Value → Prop
  | .atom text => g.atom text
  | .value v => Value.Obeys g v
  | .compound parts => Term.AllObey g parts

def Term.AllObey (g : Vocabulary) : List (Term Value) → Prop
  | [] => True
  | part :: parts => Term.Obeys g part ∧ Term.AllObey g parts

end

variable {g : Vocabulary}

theorem Value.allObey_iff {items : List Value} :
    Value.AllObey g items ↔ ∀ item ∈ items, item.Obeys g := by
  induction items with
  | nil => simp [Value.AllObey]
  | cons item items ih => simp [Value.AllObey, ih]

theorem Term.allObey_iff {parts : List (Term Value)} :
    Term.AllObey g parts ↔ ∀ part ∈ parts, part.Obeys g := by
  induction parts with
  | nil => simp [Term.AllObey]
  | cons part parts ih => simp [Term.AllObey, ih]

@[simp] theorem Value.obeys_list {items : List Value} :
    (Value.list items).Obeys g ↔ ∀ item ∈ items, item.Obeys g := by
  rw [Value.Obeys, Value.allObey_iff]

@[simp] theorem Value.obeys_lambda {serial : Nat} {parameters : List String} {body : Term Value} :
    (Value.function (.lambda serial parameters body)).Obeys g ↔ g.lambda ∧ body.Obeys g := by
  rw [Value.Obeys]

@[simp] theorem Term.obeys_atom {text : String} :
    (Term.atom text : Term Value).Obeys g ↔ g.atom text := by
  rw [Term.Obeys]

@[simp] theorem Term.obeys_value {v : Value} : (Term.value v).Obeys g ↔ v.Obeys g := by
  rw [Term.Obeys]

@[simp] theorem Term.obeys_compound {parts : List (Term Value)} :
    (Term.compound parts).Obeys g ↔ ∀ part ∈ parts, part.Obeys g := by
  rw [Term.Obeys, Term.allObey_iff]

/-! ### A larger vocabulary -/

/-- The second vocabulary allows whatever the first allows. -/
structure Vocabulary.Within (g k : Vocabulary) : Prop where
  atom : ∀ text, g.atom text → k.atom text
  leaf : ∀ v, g.leaf v → k.leaf v
  lambda : g.lambda → k.lambda

mutual

theorem Value.Obeys.mono {k : Vocabulary} (within : g.Within k) :
    ∀ {v : Value}, v.Obeys g → v.Obeys k
  | .list items, h => by
    rw [Value.Obeys] at h ⊢
    exact Value.AllObey.mono within h
  | .function (.lambda _ _ body), h => by
    rw [Value.Obeys] at h ⊢
    exact ⟨within.lambda h.1, Term.Obeys.mono within h.2⟩
  | .function (.primitive _), h | .function (.host _), h | .boolean _, h | .numeral _, h
  | .string _, h | .date _, h | .person _, h | .void, h => by
    simp only [Value.Obeys] at h ⊢
    exact within.leaf _ h

theorem Value.AllObey.mono {k : Vocabulary} (within : g.Within k) :
    ∀ {items : List Value}, Value.AllObey g items → Value.AllObey k items
  | [], _ => trivial
  | _ :: _, h => ⟨Value.Obeys.mono within h.1, Value.AllObey.mono within h.2⟩

theorem Term.Obeys.mono {k : Vocabulary} (within : g.Within k) :
    ∀ {t : Term Value}, t.Obeys g → t.Obeys k
  | .atom text, h => within.atom text h
  | .value _, h => Value.Obeys.mono within h
  | .compound _, h => Term.AllObey.mono within h

theorem Term.AllObey.mono {k : Vocabulary} (within : g.Within k) :
    ∀ {parts : List (Term Value)}, Term.AllObey g parts → Term.AllObey k parts
  | [], _ => trivial
  | _ :: _, h => ⟨Term.Obeys.mono within h.1, Term.AllObey.mono within h.2⟩

end

/-! ### Substitution -/

theorem Bindings.hide_eq_some {V : Type} {bindings : Bindings V} {names : List String}
    {name : String} {v : V} (h : bindings.hide names name = some v) : bindings name = some v := by
  unfold Bindings.hide at h
  split at h
  · cases h
  · exact h

theorem Term.Obeys.substitute {t : Term Value} {bindings : Bindings Value} (ht : t.Obeys g)
    (hb : ∀ name v, bindings name = some v → v.Obeys g) : (t.substitute bindings).Obeys g := by
  induction t using Term.induction generalizing bindings with
  | atom text =>
    unfold Term.substitute
    split
    · rename_i v hv
      exact Term.obeys_value.2 (hb text v hv)
    · exact ht
  | value v => simpa [Term.substitute] using ht
  | compound parts ih =>
    rw [Term.obeys_compound] at ht
    have each : ∀ part ∈ parts, (part.substitute bindings).Obeys g := fun part hpart =>
      ih part hpart (ht part hpart) hb
    have result := Term.substitute_compound bindings parts
    generalize (Term.compound parts).substitute bindings = t at result
    cases result with
    | lambda parameters body =>
      have hbody : (body.substitute (bindings.hide parameters.declared)).Obeys g :=
        ih body (by simp) (ht body (by simp)) fun name v hv =>
          hb name v (Bindings.hide_eq_some hv)
      have hhead := ht (.atom "lambda") (by simp)
      have hparameters := ht parameters (by simp)
      simp [hhead, hparameters, hbody]
    | define kept parts head =>
      simp only [Term.obeys_compound, List.mem_append, List.mem_map]
      rintro part (hkept | ⟨part, hpart, rfl⟩)
      · exact ht part (List.mem_append_left _ hkept)
      · exact each part (List.mem_append_right _ hpart)
    | parts parts =>
      simpa using each

theorem Bindings.mem_of_ofList {V : Type} {pairs : List (String × V)} {name : String} {v : V}
    (h : Bindings.ofList pairs name = some v) : (name, v) ∈ pairs := by
  obtain ⟨before, after, rfl, -⟩ := List.lookup_eq_some_iff.1 h
  simp

/-- The body of a lambda, once arguments are put in. -/
theorem Value.Obeys.body {serial : Nat} {parameters : List String} {body : Term Value}
    {arguments : List Value} (hf : (Value.function (.lambda serial parameters body)).Obeys g)
    (ha : ∀ v ∈ arguments, v.Obeys g) :
    (body.substitute (Bindings.ofList (parameters.zip arguments))).Obeys g := by
  refine (Value.obeys_lambda.1 hf).2.substitute fun name v hv => ?_
  exact ha v (List.of_mem_zip (Bindings.mem_of_ofList hv)).2

end KinQuery
