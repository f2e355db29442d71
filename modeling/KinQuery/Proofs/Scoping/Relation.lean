import KinQuery.Proofs.Evaluation.Simulation
import KinQuery.Proofs.Scoping.Reference
import KinQuery.Proofs.Term.Spelling

/-! Values and terms of the two ways of evaluation.

`ValueRel D v w` says that the value `v`, which comes from putting values in place of names,
stands for the value `w` of evaluation with environments, where `D` holds the definitions of
the latter. `TermRel D env hidden u t` says the same of terms: `u` is `t` with some names put
in place by what `env` or `D` has for them. The names in `hidden` are parameters of lambdas
around both terms, which have no values yet. -/
namespace KinQuery

open List (Forall₂)

/-- Neither a list nor a lambda, and no function that turns caching on. -/
def Value.isLeaf : Value → Bool
  | .list _ => false
  | .function (.lambda ..) => false
  | .function (.host h) => h.action.isPassive
  | _ => true

mutual

inductive ValueRel (D : Env) : Value → Value → Prop
  | leaf (v : Value) : v.isLeaf = true → ValueRel D v v
  | list {items others : List Value} : ItemsRel D items others →
      ValueRel D (.list items) (.list others)
  | lambda (serial : Nat) {parameters : List String} {env : Env} {body other : Term Value} :
      (∀ name ∈ parameters, IsProper name) → TermRel D env parameters body other →
        ValueRel D (.function (.lambda serial parameters body))
          (.function (.lambda serial parameters (close env other)))

inductive ItemsRel (D : Env) : List Value → List Value → Prop
  | nil : ItemsRel D [] []
  | cons {item other : Value} {items others : List Value} : ValueRel D item other →
      ItemsRel D items others → ItemsRel D (item :: items) (other :: others)

inductive TermRel (D : Env) : Env → List String → Term Value → Term Value → Prop
  /-- A name that has no value yet, or that is looked up later. -/
  | kept {env : Env} {hidden : List String} {name : String} :
      (name ∉ hidden → env.lookup name = none) → TermRel D env hidden (.atom name) (.atom name)
  | put {env : Env} {hidden : List String} {name : String} {v w : Value} : name ∉ hidden →
      IsProper name → (env ++ D).lookup name = some w → ValueRel D v w →
        TermRel D env hidden (.value v) (.atom name)
  | lambda {env : Env} {hidden : List String} (parameters : Term Value) {body other : Term Value} :
      TermRel D env (parameters.declared ++ hidden) body other →
        TermRel D env hidden (.compound [.atom "lambda", parameters, body])
          (.compound [.atom "lambda", parameters, other])
  | define {env : Env} {hidden : List String} (parts others : List (Term Value)) :
      parts.head? = some (.atom "define") → others.head? = some (.atom "define") →
        TermRel D env hidden (.compound parts) (.compound others)
  | parts {env : Env} {hidden : List String} {parts others : List (Term Value)} :
      others.head? ≠ some (.atom "define") →
        (∀ parameters body, others ≠ [.atom "lambda", parameters, body]) →
          PartsRel D env hidden parts others →
            TermRel D env hidden (.compound parts) (.compound others)

inductive PartsRel (D : Env) : Env → List String → List (Term Value) → List (Term Value) → Prop
  | nil {env : Env} {hidden : List String} : PartsRel D env hidden [] []
  | cons {env : Env} {hidden : List String} {part other : Term Value}
      {parts others : List (Term Value)} : TermRel D env hidden part other →
        PartsRel D env hidden parts others →
          PartsRel D env hidden (part :: parts) (other :: others)

end

variable {D D' : Env} {env : Env} {hidden : List String} {v w : Value} {t u : Term Value}

theorem partsRel_iff {parts others : List (Term Value)} :
    PartsRel D env hidden parts others ↔ Forall₂ (TermRel D env hidden) parts others := by
  constructor
  · intro h
    induction parts generalizing others with
    | nil =>
      cases h
      exact .nil
    | cons part parts ih =>
      cases h with
      | cons first rest => exact .cons first (ih rest)
  · intro h
    induction h with
    | nil => exact .nil
    | cons first _ ih => exact .cons first ih

/-! ### More definitions -/

/-- The second list has the definitions of the first, and perhaps more. -/
def Keeps (D D' : Env) : Prop :=
  ∀ name v, D.lookup name = some v → D'.lookup name = some v

theorem Keeps.append (h : Keeps D D') {name : String} (found : (env ++ D).lookup name = some v) :
    (env ++ D').lookup name = some v := by
  rw [List.lookup_append, Option.or_eq_some_iff] at found ⊢
  rcases found with found | ⟨none, found⟩
  · exact .inl found
  · exact .inr ⟨none, h name v found⟩

mutual

theorem ValueRel.mono (more : Keeps D D') : ∀ {v w : Value}, ValueRel D v w → ValueRel D' v w
  | _, _, .leaf v h => .leaf v h
  | _, _, .list h => .list (ItemsRel.mono more h)
  | _, _, .lambda serial proper h => .lambda serial proper (TermRel.mono more h)

theorem ItemsRel.mono (more : Keeps D D') :
    ∀ {items others : List Value}, ItemsRel D items others → ItemsRel D' items others
  | _, _, .nil => .nil
  | _, _, .cons first rest => .cons (ValueRel.mono more first) (ItemsRel.mono more rest)

theorem TermRel.mono (more : Keeps D D') : ∀ {env : Env} {hidden : List String} {u t : Term Value},
    TermRel D env hidden u t → TermRel D' env hidden u t
  | _, _, _, _, .kept free => .kept free
  | _, _, _, _, .put free proper found h =>
    .put free proper (more.append found) (ValueRel.mono more h)
  | _, _, _, _, .lambda parameters h => .lambda parameters (TermRel.mono more h)
  | _, _, _, _, .define parts others h h' => .define parts others h h'
  | _, _, _, _, .parts first second h => .parts first second (PartsRel.mono more h)

theorem PartsRel.mono (more : Keeps D D') :
    ∀ {env : Env} {hidden : List String} {parts others : List (Term Value)},
      PartsRel D env hidden parts others → PartsRel D' env hidden parts others
  | _, _, _, _, .nil => .nil
  | _, _, _, _, .cons first rest => .cons (TermRel.mono more first) (PartsRel.mono more rest)

end

/-! ### Functions -/

/-- Functions that are related as values. -/
def FunctionRel (D : Env) (f g : Function Value) : Prop :=
  ValueRel D (.function f) (.function g)

theorem functionRel_faithful : Value.Faithful (FunctionRel D) where
  name h := by cases h <;> rfl
  arity h := by cases h <;> rfl

theorem functionRel_conforms : Conforms (FunctionRel D) where
  toFaithful := functionRel_faithful
  primitive _ := .leaf _ rfl
  host _ passive := .leaf _ passive

mutual

theorem ValueRel.lift : ∀ {v w : Value}, ValueRel D v w → Value.Lift (FunctionRel D) v w
  | _, _, .leaf v h => by
    match v, h with
    | .boolean b, _ => exact .boolean b
    | .numeral n, _ => exact .numeral n
    | .string s, _ => exact .string s
    | .date d, _ => exact .date d
    | .person p, _ => exact .person p
    | .function (.primitive p), h => exact .function (.leaf _ h)
    | .function (.host f), h => exact .function (.leaf _ h)
    | .void, _ => exact .void
  | _, _, .list h => .list (ItemsRel.lift h)
  | _, _, .lambda serial proper h => .function (.lambda serial proper h)

theorem ItemsRel.lift : ∀ {items others : List Value}, ItemsRel D items others →
    Forall₂ (Value.Lift (FunctionRel D)) items others
  | _, _, .nil => .nil
  | _, _, .cons first rest => .cons (ValueRel.lift first) (ItemsRel.lift rest)

end

mutual

theorem ValueRel.of_lift : ∀ {v w : Value}, Value.Lift (FunctionRel D) v w → ValueRel D v w
  | .list _, _, .list h => .list (ItemsRel.of_lift h)
  | .function _, _, .function h => h
  | .boolean _, _, .boolean _ | .numeral _, _, .numeral _ | .string _, _, .string _
  | .date _, _, .date _ | .person _, _, .person _ | .void, _, .void => .leaf _ rfl

theorem ItemsRel.of_lift : ∀ {items others : List Value},
    Forall₂ (Value.Lift (FunctionRel D)) items others → ItemsRel D items others
  | [], _, .nil => .nil
  | _ :: _, _, .cons first rest => .cons (ValueRel.of_lift first) (ItemsRel.of_lift rest)

end

/-! ### Special forms -/

/-- A proper name begins no special form. -/
theorem IsProper.ofWord? {name : String} (proper : IsProper name) :
    SpecialForm.ofWord? name = none := by
  cases h : SpecialForm.ofWord? name with
  | none => rfl
  | some form =>
    have spelled : form.word = name := by simpa using List.find?_some h
    have free := proper.2
    rw [← spelled] at free
    cases form <;> exact absurd free (by decide)

theorem TermRel.specialForm?_eq {parts others : List (Term Value)}
    (h : TermRel D env hidden (.compound parts) (.compound others)) :
    (Term.compound parts).specialForm? = (Term.compound others).specialForm? := by
  cases h with
  | lambda parameters _ => rfl
  | define _ _ h h' => rw [specialForm?_of_define h, specialForm?_of_define h']
  | parts _ _ h =>
    cases h with
    | nil => rfl
    | cons first _ =>
      cases first with
      | kept _ => rfl
      | put _ proper _ _ => exact proper.ofWord?.symm
      | lambda _ _ => rfl
      | define _ _ _ _ => rfl
      | parts _ _ _ => rfl

/-- The parts of related compounds are related, unless these are definitions or lambdas. -/
theorem TermRel.parts_of_specialForm? {parts others : List (Term Value)}
    (h : TermRel D env hidden (.compound parts) (.compound others))
    (notDefine : (Term.compound others).specialForm? ≠ some .define)
    (notLambda : (Term.compound others).specialForm? ≠ some .lambda) :
    Forall₂ (TermRel D env hidden) parts others := by
  cases h with
  | lambda parameters _ => exact absurd rfl notLambda
  | define _ _ _ h' => exact absurd (specialForm?_of_define h') notDefine
  | parts _ _ h => exact partsRel_iff.1 h

/-! ### Applying a lambda -/

/-- Compounds whose parts are related begin in the same way. -/
theorem PartsRel.forms {parts others : List (Term Value)} (h : PartsRel D env hidden parts others)
    (notDefine : others.head? ≠ some (.atom "define"))
    (notLambda : ∀ parameters body, others ≠ [.atom "lambda", parameters, body]) :
    parts.head? ≠ some (.atom "define") ∧
      ∀ parameters body, parts ≠ [.atom "lambda", parameters, body] := by
  constructor
  · intro define
    cases h with
    | nil => cases define
    | cons first rest =>
      cases define
      cases first
      exact notDefine rfl
  · rintro parameters body rfl
    cases h with
    | cons first rest =>
      cases first
      cases rest with
      | cons second rest =>
        cases rest with
        | cons third rest =>
          cases rest
          exact notLambda _ _ rfl

theorem Bindings.hide_nil (bindings : Bindings Value) : bindings.hide [] = bindings := by
  funext name
  simp [hide]

theorem Bindings.hide_hide (bindings : Bindings Value) (names others : List String) :
    (bindings.hide names).hide others = bindings.hide (others ++ names) := by
  funext name
  by_cases first : name ∈ others
  · simp [hide, first]
  · simp [hide, first]

/-- The parameters of a lambda with arguments for them, which are related to others. -/
structure Binds (D : Env) (parameters : List String) (vs ws : List Value) : Prop where
  proper : ∀ name ∈ parameters, IsProper name
  values : Forall₂ (ValueRel D) vs ws
  length : parameters.length = vs.length

section Applying
variable {parameters : List String} {vs ws : List Value}

theorem TermRel.substitute_atom (binds : Binds D parameters vs ws) {name : String}
    {inner : List String}
    (free : name ∉ hidden → env.lookup name = none)
    (split : name ∈ hidden ↔ name ∈ inner ∨ name ∈ parameters) :
    TermRel D (parameters.zip ws ++ env) inner
      ((Term.atom name).substitute ((Bindings.ofList (parameters.zip vs)).hide inner))
      (.atom name) := by
  rw [Term.substitute, Bindings.hide]
  by_cases inside : name ∈ inner
  · rw [if_pos (by simpa using inside)]
    exact .kept fun outside => absurd inside outside
  · rw [if_neg (by simpa using inside), Bindings.ofList]
    rcases lookup_zip binds.values binds.length name with
      ⟨other, none, none'⟩ | ⟨member, v, w, some, some', h⟩
    · rw [none]
      refine .kept fun _ => ?_
      have outside : name ∉ hidden := by
        rw [split]
        exact not_or.2 ⟨inside, other⟩
      rw [List.lookup_append, none', free outside]
      rfl
    · rw [some]
      refine .put inside (binds.proper name member) ?_ h
      rw [List.append_assoc, List.lookup_append, some']
      rfl

mutual

/-- To put arguments in place of parameters is to evaluate with the arguments in the
environment. -/
theorem TermRel.substitute (binds : Binds D parameters vs ws) :
    ∀ {env : Env} {hidden : List String} {u t : Term Value},
      TermRel D env hidden u t → ∀ {inner : List String},
        (∀ name, name ∈ hidden ↔ name ∈ inner ∨ name ∈ parameters) →
          TermRel D (parameters.zip ws ++ env) inner
            (u.substitute ((Bindings.ofList (parameters.zip vs)).hide inner)) t
  | _, _, _, _, @TermRel.kept _ _ _ name free, _, split =>
    TermRel.substitute_atom binds free (split name)
  | _, _, _, _, @TermRel.put _ _ _ name v w outside isProper found h, inner, split => by
    have apart := (not_congr (split name)).1 outside
    rw [not_or] at apart
    rw [Term.substitute]
    refine .put apart.1 isProper ?_ h
    rcases lookup_zip binds.values binds.length name with ⟨-, -, none⟩ | ⟨member, -⟩
    · rw [List.append_assoc, List.lookup_append, none, found]
      rfl
    · exact absurd member apart.2
  | _, _, _, _, .lambda declared h, inner, split => by
    rw [Term.substitute, Bindings.hide_hide]
    refine .lambda declared (TermRel.substitute binds h fun name => ?_)
    rw [List.mem_append, List.mem_append, split, or_assoc]
  | _, _, _, _, .define parts others h h', _, _ => by
    obtain ⟨substituted, result, head⟩ := Term.substitute_define _ h
    rw [result]
    exact .define substituted others head h'
  | _, _, _, _, .parts notDefine notLambda h, _, split => by
    obtain ⟨notDefine', notLambda'⟩ := h.forms notDefine notLambda
    rw [Term.substitute_parts _ notDefine' notLambda']
    exact .parts notDefine notLambda (PartsRel.substitute binds h split)

theorem PartsRel.substitute (binds : Binds D parameters vs ws) :
    ∀ {env : Env} {hidden : List String} {parts others : List (Term Value)},
      PartsRel D env hidden parts others → ∀ {inner : List String},
        (∀ name, name ∈ hidden ↔ name ∈ inner ∨ name ∈ parameters) →
          PartsRel D (parameters.zip ws ++ env) inner
            (parts.map (Term.substitute ((Bindings.ofList (parameters.zip vs)).hide inner))) others
  | _, _, _, _, .nil, _, _ => .nil
  | _, _, _, _, .cons first rest, _, split =>
    .cons (TermRel.substitute binds first split) (PartsRel.substitute binds rest split)

end
end Applying

/-! ### Terms as they are read -/

/-- To put definitions in place is to look them up. -/
theorem TermRel.of_isBare {definitions : Env}
    (related : Forall₂ (fun entry other =>
      entry.1 = other.1 ∧ Value.Lift (FunctionRel D) entry.2 other.2) definitions D)
    (proper : ∀ name, (D.lookup name).isSome = true → IsProper name) (bare : t.IsBare)
    (hidden : List String) :
    TermRel D [] hidden
      (t.substitute (Bindings.hide (fun name => definitions.lookup name) hidden)) t := by
  induction bare generalizing hidden with
  | @atom name _ =>
    rw [Term.substitute, Bindings.hide]
    by_cases inside : name ∈ hidden
    · rw [if_pos (by simpa using inside)]
      exact .kept fun _ => rfl
    · rw [if_neg (by simpa using inside)]
      rcases lookup_of_forall₂ related name with ⟨none, -⟩ | ⟨v, w, some, some', h⟩
      · rw [none]
        exact .kept fun _ => rfl
      · rw [some]
        exact .put inside (proper name (by simp [some'])) some' (.of_lift h)
  | @compound parts _ ih =>
    have each : PartsRel D [] hidden
        (parts.map (Term.substitute (Bindings.hide (fun name => definitions.lookup name) hidden)))
        parts := by
      rw [partsRel_iff, List.forall₂_map_left_iff]
      exact List.forall₂_same.2 fun part hpart => ih part hpart hidden
    cases Term.form parts with
    | lambda parameters body =>
      rw [Term.substitute_lambda, Bindings.hide_hide]
      exact .lambda parameters (ih body (by simp) _)
    | alone =>
      rw [Term.substitute_alone]
      exact .define _ _ rfl rfl
    | define name parts =>
      rw [Term.substitute_definition]
      exact .define _ _ rfl rfl
    | parts notDefine notLambda =>
      rw [Term.substitute_parts _ notDefine notLambda]
      exact .parts notDefine notLambda each

end KinQuery
