import KinQuery.Proofs.Lambda.Likeness

/-! Terms that are alike come to values that are alike.

The second evaluation may be too deep where the first is not. Where the second ends, the first
ends as well, given more depth by at least the height of what is spelled in it. -/
namespace KinQuery

open List (Forall₂)

variable {height n m : Nat} {D : List (String × Value)} {s r : Session} {u t : Term Value}
  {hidden : List String} {v : Value} {parts others : List (Term Value)}
  {evaluate evaluateIn : Term Value → Run Value}
  {perform performIn : Function Value → List Value → Run Value}

/-- Where the second computation is not too deep, the first ends in the same way. -/
abbrev Follows (height : Nat) (D : List (String × Value)) (m n : Run Value) : Prop :=
  SimulatesValue (FunctionLike height) D False True m n

theorem Related.isDirect {F : Function Value → Function Value → Prop} (h : Related F D s r) :
    s.IsDirect ∧ r.IsDirect := by
  have hosts (host : HostFunction) (member : host ∈ s.hosts) : IsProper host.name :=
    (h.registered host member).1
  refine ⟨⟨h.uncached, hosts, ?_, ?_⟩, ⟨h.uncached', h.hosts ▸ hosts, ?_, ?_⟩⟩
  all_goals
    intro name v hv
    rcases h.definition? name with ⟨none, none'⟩ | ⟨w, w', some, some', -, proper, free⟩
    · simp [none, none'] at hv
  · exact proper
  · exact free
  · exact proper
  · rw [h.function?]
    exact free

/-! ### Spelled values -/

theorem Spells.follows_left (h : Spells hidden t v) (self : ValueLike height v v)
    (deep : t.height < n) : Follows height D (eval n t) (pure v) := by
  intro s r related
  obtain ⟨s', same, run | ⟨below, -⟩⟩ := h.comesTo n s related.isDirect.1
  · rw [run]
    exact .ok self (related.sameButTree same (.inl rfl))
  · omega

theorem Spells.follows_right (h : Spells hidden t v) (self : ValueLike height v v) (m : Nat) :
    Follows height D (pure v) (eval m t) := by
  intro s r related
  obtain ⟨r', same, run | ⟨-, run⟩⟩ := h.comesTo m r related.isDirect.2
  · rw [run]
    exact .ok self (related.sameButTree (.inl rfl) same)
  · rw [run]
    exact .right _ trivial

/-! ### Heads and arguments -/

/-- Alike heads are resolved to alike functions. -/
theorem resolve_follows (h : TermLike height [] u t)
    (evaluated : Follows height D (eval (n + 1) u) (eval m t)) :
    Simulates (FunctionLike height) D False True (FunctionLike height) (resolve (eval (n + 1)) u)
      (resolve (eval m) t) := by
  have general := evalToFunction_simulates evaluated
  cases h with
  | atom name =>
    intro s r related
    unfold resolve
    rw [Run.run_bind_ok (Run.run_get s), Run.run_bind_ok (Run.run_get r), related.function?]
    rcases related.definition? name with ⟨none, none'⟩ | ⟨v, w, some, some', hvw, -, free⟩
    · rw [none, none']
      dsimp only
      cases hf : s.function? name with
      | none => exact general s r related
      | some f => exact .ok (related.of_function? functionLike_conforms hf).2 related
    · rw [some, some', free]
      cases hvw with
      | function hfg => exact .ok hfg related
      | _ => exact general s r related
  | value same => exact general
  | spelled spells _ _ =>
    intro s r related
    rcases spells.run_resolve_cases related.isDirect.1 with ⟨p, rfl, run⟩ | run
    · rw [run]
      cases m with
      | zero => exact .right _ trivial
      | succ m => exact .ok (.primitive p) related
    · rw [run]
      exact general s r related
  | spelling spells _ =>
    intro s r related
    rcases spells.run_resolve_cases related.isDirect.2 with ⟨p, rfl, run⟩ | run
    · rw [run]
      exact .ok (.primitive p) related
    · rw [run]
      exact general s r related
  | lambda _ _ => exact general
  | refused _ _ _ _ => exact general
  | define _ _ => exact general
  | parts _ _ _ _ => exact general

theorem evalApplication_follows {head head' : Term Value} {arguments arguments' : List (Term Value)}
    (h : TermLike height [] head head')
    (evaluated : Forall₂ (fun u t => Follows height D (eval (n + 1) u) (eval m t))
      (head :: arguments) (head' :: arguments'))
    (applied : ∀ f g vs ws, FunctionLike height f g → Forall₂ (ValueLike height) vs ws →
      Follows height D (apply (n + 1) f vs) (apply m g ws)) :
    Follows height D (evalApplication (eval (n + 1)) (apply (n + 1)) head arguments)
      (evalApplication (eval m) (apply m) head' arguments') := by
  obtain ⟨first, rest⟩ := List.forall₂_cons.1 evaluated
  intro s r related
  rw [related.isDirect.1.run_evalApplication, related.isDirect.2.run_evalApplication]
  have direct : Follows height D (applyTo (eval (n + 1)) (apply (n + 1)) head arguments)
      (applyTo (eval m) (apply m) head' arguments') := by
    unfold applyTo
    rw [← rest.length_eq]
    refine (resolve_follows h first).bind fun f g hfg => ?_
    refine (checkArity_simulates (functionLike_faithful.arity hfg) _).bind fun _ _ _ => ?_
    exact (Simulates.mapM rest).bind fun vs ws hvs => applied f g vs ws hfg hvs
  exact direct s r related

/-! ### Special forms -/

theorem Spells.form_eq_none (h : Spells hidden t v) : t.atom?.bind SpecialForm.ofWord? = none := by
  cases h with
  | value _ => rfl
  | word word _ => exact word.ofWord?_key
  | list _ _ _ => rfl

theorem form_eq (h : TermLike height hidden u t) :
    u.atom?.bind SpecialForm.ofWord? = t.atom?.bind SpecialForm.ofWord? := by
  cases h with
  | spelled spells _ _ => exact spells.form_eq_none
  | spelling spells _ => exact spells.form_eq_none.symm
  | _ => rfl

theorem specialForm?_eq (h : TermLike height hidden (.compound parts) (.compound others)) :
    (Term.compound parts).specialForm? = (Term.compound others).specialForm? := by
  cases h with
  | lambda _ _ => rfl
  | refused _ _ _ _ => rfl
  | define define define' => rw [specialForm?_of_define define, specialForm?_of_define define']
  | parts _ _ length each =>
    cases parts with
    | nil =>
      obtain rfl := List.eq_nil_of_length_eq_zero length.symm
      rfl
    | cons part parts =>
      cases others with
      | nil => cases length
      | cons other others => exact form_eq (each part other (by simp))

/-- The parts of alike compounds are alike, unless these are definitions or lambdas. -/
theorem parts_of_specialForm? (h : TermLike height hidden (.compound parts) (.compound others))
    (notDefine : (Term.compound others).specialForm? ≠ some .define)
    (notLambda : (Term.compound others).specialForm? ≠ some .lambda) :
    Forall₂ (TermLike height hidden) parts others := by
  cases h with
  | lambda _ _ => exact absurd rfl notLambda
  | refused _ _ _ _ => exact absurd rfl notLambda
  | define _ define => exact absurd (specialForm?_of_define define) notDefine
  | parts _ _ length each =>
    exact List.forall₂_iff_zip.2 ⟨length, fun {part other} pair => each part other pair⟩

/-- The lambdas that alike terms make are alike, if there are any. -/
theorem lambdaParts_matches_of_like (h : TermLike height [] (.compound parts) (.compound others))
    (special : (Term.compound others).specialForm? = some .lambda) :
    Matches (fun x y => x.1 = y.1 ∧ TermLike height x.1 x.2 y.2) (lambdaParts parts)
      (lambdaParts others) := by
  cases h with
  | @lambda _ parameters body other h =>
    cases parameters with
    | atom name => exact .error rfl
    | value v => exact .error rfl
    | compound declared =>
      unfold lambdaParts
      dsimp only
      cases hnames : declareParameters [] declared with
      | error failure => exact .error rfl
      | ok names =>
        obtain ⟨rfl, -⟩ := declareParameters_eq_ok hnames
        rw [List.append_nil, Term.declared_atoms] at h
        exact .ok ⟨rfl, h⟩
  | refused body other refused refused' =>
    exact lambdaParts_matches_of_refused (refused body) (refused' other)
  | define _ define =>
    rw [specialForm?_of_define define] at special
    cases special
  | parts _ notLambda length _ =>
    have other : others.length ≠ 3 := by
      intro three
      obtain ⟨head, parameters, body, rfl⟩ := List.length_eq_three.1 three
      obtain rfl := Option.some.inj (Term.head_of_specialForm? special)
      exact notLambda parameters body rfl
    refine lambdaParts_matches_of_refused (fun known made => ?_) fun known made => ?_
    · obtain ⟨⟨leader, rfl⟩, -⟩ := lambdaParts_eq_ok made
      exact other length.symm
    · obtain ⟨⟨leader, rfl⟩, -⟩ := lambdaParts_eq_ok made
      exact other rfl

theorem evalLambda_follows (h : TermLike height [] (.compound parts) (.compound others))
    (special : (Term.compound others).specialForm? = some .lambda) :
    Follows height D (evalLambda parts) (evalLambda others) := by
  refine (Simulates.ofExcept (lambdaParts_matches_of_like h special)).bind ?_
  rintro ⟨names, body⟩ ⟨_, other⟩ ⟨rfl, hbody⟩
  exact makeLambda_simulates fun serial => .lambda serial hbody

theorem evalCompound_follows (h : TermLike height [] (.compound parts) (.compound others))
    (evaluated : ∀ u t, TermLike height [] u t → Follows height D (eval (n + 1) u) (eval m t))
    (applied : ∀ f g vs ws, FunctionLike height f g → Forall₂ (ValueLike height) vs ws →
      Follows height D (apply (n + 1) f vs) (apply m g ws)) :
    Follows height D (evalCompound (eval (n + 1)) (apply (n + 1)) parts)
      (evalCompound (eval m) (apply m) others) := by
  unfold evalCompound
  rw [specialForm?_eq h]
  cases special : (Term.compound others).specialForm? with
  | none =>
    have pairs := parts_of_specialForm? h (by simp [special]) (by simp [special])
    have each := pairs.imp fun u t => evaluated u t
    cases pairs with
    | nil => exact .fail rfl
    | cons first _ => exact evalApplication_follows first each applied
  | some form =>
    cases form with
    | lambda => exact evalLambda_follows h special
    | define => exact .fail rfl
    | conditional =>
      have pairs := parts_of_specialForm? h (by simp [special]) (by simp [special])
      exact evalConditional_simulates (pairs.imp fun u t => evaluated u t)

/-! ### Evaluation -/

theorem eval_succ_follows (deep : m + height ≤ n)
    (evaluated : ∀ u t, TermLike height [] u t → Follows height D (eval (n + 1) u) (eval m t))
    (applied : ∀ f g vs ws, FunctionLike height f g → Forall₂ (ValueLike height) vs ws →
      Follows height D (apply (n + 1) f vs) (apply m g ws))
    (h : TermLike height [] u t) : Follows height D (eval (n + 2) u) (eval (m + 1) t) := by
  cases h with
  | atom name => exact evalAtom_simulates functionLike_conforms name
  | value same => exact .pure same
  | spelled spells below self => exact spells.follows_left self (by omega)
  | spelling spells self => exact spells.follows_right self (m + 1)
  | lambda parameters h => exact evalCompound_follows (.lambda parameters h) evaluated applied
  | refused body other h h' =>
    exact evalCompound_follows (.refused body other h h') evaluated applied
  | define h h' => exact evalCompound_follows (.define h h') evaluated applied
  | parts notDefine notLambda length each =>
    exact evalCompound_follows (.parts notDefine notLambda length each) evaluated applied

/-- Lambdas with alike bodies, whatever their names are. -/
theorem apply_lambda_follows (serial serial' : Nat) {parameters : List String}
    {body other : Term Value} {vs ws : List Value}
    (evaluated : ∀ u t, TermLike height [] u t → Follows height D (eval n u) (eval m t))
    (h : TermLike height parameters body other) (values : Forall₂ (ValueLike height) vs ws) :
    Follows height D (apply (n + 1) (.lambda serial parameters body) vs)
      (apply (m + 1) (.lambda serial' parameters other) ws) := by
  have same : (Function.lambda serial parameters body).arity =
      (Function.lambda serial' parameters other).arity := rfl
  rw [apply_lambda, apply_lambda, ← values.length_eq]
  refine (checkArity_simulates same _).bind fun _ _ accepted => ?_
  have length : parameters.length = vs.length := by
    simpa [Function.arity, Arity.accepts, eq_comm] using accepted
  exact evaluated _ _ (h.applied values length)

theorem apply_succ_follows {f g : Function Value} {vs ws : List Value}
    (evaluated : ∀ u t, TermLike height [] u t → Follows height D (eval n u) (eval m t))
    (applied : ∀ f g vs ws, FunctionLike height f g → Forall₂ (ValueLike height) vs ws →
      Follows height D (apply n f vs) (apply m g ws))
    (h : FunctionLike height f g) (values : Forall₂ (ValueLike height) vs ws) :
    Follows height D (apply (n + 1) f vs) (apply (m + 1) g ws) := by
  cases h with
  | primitive p =>
    rw [apply_primitive, apply_primitive, ← values.length_eq]
    exact (checkArity_simulates rfl _).bind fun _ _ _ =>
      call_simulates functionLike_faithful p applied values
  | host passive =>
    rw [apply_host, apply_host, ← values.length_eq]
    exact (checkArity_simulates rfl _).bind fun _ _ _ =>
      hostCall_simulates functionLike_faithful passive values
  | lambda serial h => exact apply_lambda_follows serial serial evaluated h values

/-- Evaluation and application of what is alike. -/
theorem eval_follows (deep : m + height < n) :
    (∀ u t, TermLike height [] u t → Follows height D (eval n u) (eval m t)) ∧
    ∀ f g vs ws, FunctionLike height f g → Forall₂ (ValueLike height) vs ws →
      Follows height D (apply n f vs) (apply m g ws) := by
  induction m generalizing n with
  | zero => exact ⟨fun _ _ _ => .right trivial _, fun _ _ _ _ _ _ => .right trivial _⟩
  | succ m ih =>
    obtain ⟨n, rfl⟩ : ∃ k, n = k + 2 := ⟨n - 2, by omega⟩
    obtain ⟨evaluated, applied⟩ := ih (n := n + 1) (by omega)
    exact ⟨fun _ _ h => eval_succ_follows (by omega) evaluated applied h,
      fun _ _ _ _ h values => apply_succ_follows evaluated applied h values⟩

end KinQuery
