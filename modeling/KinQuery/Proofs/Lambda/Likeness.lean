import KinQuery.Proofs.Evaluation.Simulation
import KinQuery.Proofs.Lambda.Spells
import KinQuery.Proofs.Session.Formed

/-! Functions and terms that no evaluation tells apart.

Two terms are alike if they are the same but for values, which in one of them may stand as
themselves and in the other be spelled, and for the bodies of lambda terms that are refused
anyway. The names in `hidden` are parameters of lambdas around both terms: no word that spells
a value may be one of them. Of spelled values in the first term the height is bounded. -/
namespace KinQuery

open List (Forall₂)

mutual

inductive FunctionLike (height : Nat) : Function Value → Function Value → Prop
  | primitive (p : Primitive) : FunctionLike height (.primitive p) (.primitive p)
  | host {h : HostFunction} : h.action.isPassive = true → FunctionLike height (.host h) (.host h)
  | lambda (serial : Nat) {parameters : List String} {body other : Term Value} :
      TermLike height parameters body other →
        FunctionLike height (.lambda serial parameters body) (.lambda serial parameters other)

inductive TermLike (height : Nat) : List String → Term Value → Term Value → Prop
  | atom {hidden : List String} (text : String) : TermLike height hidden (.atom text) (.atom text)
  | value {hidden : List String} {v w : Value} : Value.Lift (FunctionLike height) v w →
      TermLike height hidden (.value v) (.value w)
  /-- The first term spells a value that stands in the second. -/
  | spelled {hidden : List String} {t : Term Value} {v : Value} : Spells hidden t v →
      t.height ≤ height → Value.Lift (FunctionLike height) v v → TermLike height hidden t (.value v)
  /-- The second term spells a value that stands in the first. -/
  | spelling {hidden : List String} {t : Term Value} {v : Value} : Spells hidden t v →
      Value.Lift (FunctionLike height) v v → TermLike height hidden (.value v) t
  | lambda {hidden : List String} (parameters : Term Value) {body other : Term Value} :
      TermLike height (parameters.declared ++ hidden) body other →
        TermLike height hidden (.compound [.atom "lambda", parameters, body])
          (.compound [.atom "lambda", parameters, other])
  | refused {hidden : List String} {parameters parameters' : Term Value} (body other : Term Value) :
      parameters.IsRefused → parameters'.IsRefused →
        TermLike height hidden (.compound [.atom "lambda", parameters, body])
          (.compound [.atom "lambda", parameters', other])
  | define {hidden : List String} {parts others : List (Term Value)} :
      parts.head? = some (.atom "define") → others.head? = some (.atom "define") →
        TermLike height hidden (.compound parts) (.compound others)
  | parts {hidden : List String} {parts others : List (Term Value)} :
      others.head? ≠ some (.atom "define") →
        (∀ parameters body, others ≠ [.atom "lambda", parameters, body]) →
          parts.length = others.length →
            (∀ part other, (part, other) ∈ parts.zip others → TermLike height hidden part other) →
              TermLike height hidden (.compound parts) (.compound others)

end

/-- Values that differ in functions that are alike. -/
abbrev ValueLike (height : Nat) (v w : Value) : Prop :=
  Value.Lift (FunctionLike height) v w

variable {height : Nat} {hidden inner : List String} {t u : Term Value} {v w : Value}
  {parts others : List (Term Value)}

theorem functionLike_faithful : Value.Faithful (FunctionLike height) where
  name h := by cases h <;> rfl
  arity h := by cases h <;> rfl

theorem functionLike_conforms : Conforms (FunctionLike height) where
  toFaithful := functionLike_faithful
  primitive := .primitive
  host _ passive := .host passive

theorem eq_none_of_rel {R : Value → Value → Prop} {found other : Option Value}
    (related : Option.Rel R found other) (none : found = none) : other = Option.none := by
  subst none
  cases related
  rfl

namespace TermLike

theorem of_forall₂ (notDefine : others.head? ≠ some (.atom "define"))
    (notLambda : ∀ parameters body, others ≠ [.atom "lambda", parameters, body])
    (each : Forall₂ (TermLike height hidden) parts others) :
    TermLike height hidden (.compound parts) (.compound others) :=
  .parts notDefine notLambda each.length_eq fun _ _ pair => List.forall₂_zip each pair

theorem mono (h : TermLike height hidden u t) (fewer : inner ⊆ hidden) :
    TermLike height inner u t := by
  induction u using Term.induction generalizing t hidden inner with
  | atom text =>
    cases h with
    | atom text => exact .atom text
    | spelled spells below same => exact .spelled (spells.mono fewer) below same
  | value v =>
    cases h with
    | value same => exact .value same
    | spelled spells below same => exact .spelled (spells.mono fewer) below same
    | spelling spells same => exact .spelling (spells.mono fewer) same
  | compound parts ih =>
    cases h with
    | spelled spells below same => exact .spelled (spells.mono fewer) below same
    | lambda parameters body =>
      have more : parameters.declared ++ inner ⊆ parameters.declared ++ hidden :=
        List.append_subset.2
          ⟨List.subset_append_left _ _, List.subset_append_of_subset_right _ fewer⟩
      exact .lambda parameters (ih _ (by simp) body more)
    | refused body other refused refused' => exact .refused body other refused refused'
    | define define define' => exact .define define define'
    | parts notDefine notLambda length each =>
      refine .parts notDefine notLambda length fun part other pair => ?_
      exact ih part (List.of_mem_zip pair).1 (each part other pair) fewer

/-- Compounds whose parts are alike begin in the same way. -/
theorem head_of_atom {text : String} {form : SpecialForm}
    (special : SpecialForm.ofWord? text = some form)
    (h : TermLike height hidden (.atom text) t) : t = .atom text := by
  cases h with
  | atom _ => rfl
  | spelled spells _ _ =>
    cases spells with
    | word word _ =>
      rw [word.ofWord?_key] at special
      cases special

theorem forms (notDefine : others.head? ≠ some (.atom "define"))
    (notLambda : ∀ parameters body, others ≠ [.atom "lambda", parameters, body])
    (each : Forall₂ (TermLike height hidden) parts others) :
    parts.head? ≠ some (.atom "define") ∧
      ∀ parameters body, parts ≠ [.atom "lambda", parameters, body] := by
  constructor
  · intro define
    cases each with
    | nil => cases define
    | cons first _ =>
      cases define
      obtain rfl := first.head_of_atom (SpecialForm.ofWord?_word .define)
      exact notDefine rfl
  · rintro parameters body rfl
    obtain _ | ⟨first, _ | ⟨_, _ | ⟨_, _ | _⟩⟩⟩ := each
    obtain rfl := first.head_of_atom (SpecialForm.ofWord?_word .lambda)
    exact notLambda _ _ rfl

/-- A compound is like itself if its parts are like themselves, whatever is hidden. -/
theorem compound_self (each : ∀ part ∈ parts, ∀ hidden, TermLike height hidden part part)
    (hidden : List String) : TermLike height hidden (.compound parts) (.compound parts) := by
  cases Term.form parts with
  | lambda parameters body => exact .lambda parameters (each body (by simp) _)
  | alone => exact .define rfl rfl
  | define name parts => exact .define rfl rfl
  | parts notDefine notLambda =>
    refine of_forall₂ notDefine notLambda ?_
    exact List.forall₂_same.2 fun part hpart => each part hpart hidden

/-! ### Substitution -/

theorem substitute {bindings bindings' : Bindings Value} (h : TermLike height hidden u t)
    (free : ∀ name, name ∉ hidden → bindings name = none)
    (same : ∀ name, Option.Rel (ValueLike height) (bindings name) (bindings' name)) :
    TermLike height hidden (u.substitute bindings) (t.substitute bindings') := by
  induction u using Term.induction generalizing t hidden bindings bindings' with
  | atom text =>
    cases h with
    | atom text =>
      rw [Term.substitute, Term.substitute]
      have related := same text
      generalize bindings text = found, bindings' text = found' at related
      cases related with
      | none => exact .atom text
      | some same => exact .value same
    | spelled spells below self =>
      rw [spells.substitute free, Term.substitute]
      exact .spelled spells below self
  | value v =>
    rw [Term.substitute]
    cases h with
    | value same =>
      rw [Term.substitute]
      exact .value same
    | spelled spells below self =>
      rw [Term.substitute]
      exact .spelled spells below self
    | spelling spells self =>
      rw [spells.substitute fun name outside => eq_none_of_rel (same name) (free name outside)]
      exact .spelling spells self
  | compound parts ih =>
    cases h with
    | spelled spells below self =>
      rw [spells.substitute free, Term.substitute]
      exact .spelled spells below self
    | lambda parameters body =>
      rw [Term.substitute, Term.substitute]
      refine .lambda parameters (ih _ (by simp) body (fun name outside => ?_) fun name => ?_)
      · rw [List.mem_append, not_or] at outside
        rw [Bindings.hide, free name outside.2, ite_self]
      · rw [Bindings.hide, Bindings.hide]
        split
        · exact .none
        · exact same name
    | refused body other refused refused' =>
      rw [Term.substitute, Term.substitute]
      exact .refused _ _ refused refused'
    | define define define' =>
      obtain ⟨substituted, result, head⟩ := Term.substitute_define bindings define
      obtain ⟨substituted', result', head'⟩ := Term.substitute_define bindings' define'
      rw [result, result']
      exact .define head head'
    | parts notDefine notLambda length each =>
      have pairs := List.forall₂_iff_zip.2 ⟨length, fun {part other} pair => each part other pair⟩
      obtain ⟨notDefine', notLambda'⟩ := forms notDefine notLambda pairs
      obtain ⟨still, still'⟩ := Term.forms_map_substitute bindings' notDefine notLambda
      rw [Term.substitute_parts _ notDefine' notLambda',
        Term.substitute_parts _ notDefine notLambda]
      refine .of_forall₂ still still' ?_
      rw [List.forall₂_map_left_iff, List.forall₂_map_right_iff, List.forall₂_iff_zip]
      refine ⟨length, fun {part other} pair => ?_⟩
      exact ih part (List.of_mem_zip pair).1 (each part other pair) free same

/-- The bodies of alike lambdas, once alike arguments are put in. -/
theorem applied {parameters : List String} {vs ws : List Value} (h : TermLike height parameters u t)
    (values : Forall₂ (ValueLike height) vs ws) (length : parameters.length = vs.length) :
    TermLike height [] (u.substitute (Bindings.ofList (parameters.zip vs)))
      (t.substitute (Bindings.ofList (parameters.zip ws))) := by
  refine (h.substitute (fun name outside => ?_) fun name => ?_).mono (List.nil_subset parameters)
  · rcases lookup_zip values length name with ⟨-, none, -⟩ | ⟨inside, -⟩
    · exact none
    · exact absurd inside outside
  · unfold Bindings.ofList
    rcases lookup_zip values length name with ⟨-, none, none'⟩ | ⟨-, v, w, some, some', same⟩
    · rw [none, none']
      exact .none
    · rw [some, some']
      exact .some same

end TermLike

/-! ### Reflexivity -/

mutual

theorem ValueLike.refl : ∀ {v : Value}, v.IsFormed → ValueLike height v v
  | .list items, h => .list (ValueLike.refl_items (by rwa [Value.IsFormed] at h))
  | .function (.primitive p), _ => .function (.primitive p)
  | .function (.host _), h => .function (.host (Value.isFormed_host.1 h).2)
  | .function (.lambda serial parameters body), h =>
    .function (.lambda serial (TermLike.refl (Value.isFormed_lambda.1 h).2 parameters))
  | .boolean b, _ => .boolean b
  | .numeral n, _ => .numeral n
  | .string s, _ => .string s
  | .date d, _ => .date d
  | .person p, _ => .person p
  | .void, _ => .void

theorem ValueLike.refl_items : ∀ {items : List Value}, Value.AreFormed items →
    Forall₂ (ValueLike height) items items
  | [], _ => .nil
  | _ :: _, h => .cons (ValueLike.refl h.1) (ValueLike.refl_items h.2)

theorem TermLike.refl : ∀ {t : Term Value}, t.IsFormed → ∀ hidden, TermLike height hidden t t
  | .atom text, _, _ => .atom text
  | .value _, h, _ => .value (ValueLike.refl (Term.isFormed_value.1 h))
  | .compound _, h, hidden =>
    TermLike.compound_self (TermLike.refl_parts (by rwa [Term.IsFormed] at h)) hidden

theorem TermLike.refl_parts : ∀ {parts : List (Term Value)}, Term.AreFormed parts →
    ∀ part ∈ parts, ∀ hidden, TermLike height hidden part part
  | [], _ => by simp
  | _ :: _, h => List.forall_mem_cons.2 ⟨TermLike.refl h.1, TermLike.refl_parts h.2⟩

end

end KinQuery
