import KinQuery.Proofs.Scoping.Relation

/-! Evaluation by substitution simulates evaluation with environments, and the other way
around. -/
namespace KinQuery

open List (Forall₂)

variable {D : Env} {p q : Prop} {env : Env} {s r : Session} {t u : Term Value}
  {evaluate evaluateIn : Term Value → Run Value}
  {perform performIn : Function Value → List Value → Run Value}

/-- The computations simulate each other, and the values that they end with are related. -/
abbrev Stands (D : Env) (p q : Prop) (m n : Run Value) : Prop :=
  SimulatesValue (FunctionRel D) D p q m n

/-! ### Heads and arguments -/

theorem run_evalToFunction_atom {name : String} {g : Function Value}
    (looked : evaluateIn (.atom name) = lookUpIn env name) (free : env.lookup name = none)
    (answer : atomAnswer r name = .ok (.function g)) :
    ∃ r', r.SameButTree r' ∧ (evalToFunction evaluateIn (.atom name)).run r = (.ok g, r') := by
  obtain ⟨r', same, run⟩ := run_evalAtom name r
  rw [answer] at run
  refine ⟨r', same, ?_⟩
  rw [evalToFunction, looked, lookUpIn, free, Run.run_bind_ok run]
  rfl

/-- A head that is a name is resolved to the function that its name stands for. -/
theorem resolve_simulates (h : TermRel D env [] u t)
    (evaluated : Stands D p q (evaluate u) (evaluateIn t))
    (looked : (∀ name, evaluateIn (.atom name) = lookUpIn env name) ∨
      q ∧ evaluateIn t = throw .tooDeep) :
    Simulates (FunctionRel D) D p q (FunctionRel D) (resolve evaluate u)
      (evalToFunction evaluateIn t) := by
  have general := evalToFunction_simulates evaluated
  rcases looked with looked | ⟨allowed, tooDeep⟩
  · cases h with
    | @kept _ _ name free =>
      have free := free (by simp)
      intro s r related
      unfold resolve
      rw [Run.run_bind_ok (Run.run_get s)]
      rcases related.definition? name with ⟨none, -⟩ | ⟨v, w, some, some', hvw, proper, other⟩
      · rw [none]
        dsimp only
        cases hf : s.function? name with
        | none => exact general s r related
        | some f =>
          obtain ⟨literal, self⟩ := related.of_function? functionRel_conforms hf
          have answer : atomAnswer r name = .ok (.function f) := by
            unfold atomAnswer
            rw [literal, related.function?, hf]
          obtain ⟨r', same, run⟩ := run_evalToFunction_atom (looked name) free answer
          rw [run]
          exact .ok self (related.sameButTree (.inl rfl) same)
      · rw [some, other]
        cases hvw with
        | @function f g hfg =>
          have answer := related.atomAnswer_of_definition? proper other some'
          obtain ⟨r', same, run⟩ := run_evalToFunction_atom (looked name) free answer
          rw [run]
          exact .ok hfg (related.sameButTree (.inl rfl) same)
        | _ => exact general s r related
    | put _ _ _ _ => exact general
    | lambda _ _ => exact general
    | define _ _ _ _ => exact general
    | parts _ _ _ => exact general
  · intro s r _
    have run : (evalToFunction evaluateIn t).run r = (.error .tooDeep, r) := by
      rw [evalToFunction, tooDeep]
      rfl
    rw [run]
    exact .right _ allowed

theorem evalApplication_simulates {head head' : Term Value} {arguments arguments' : List (Term Value)}
    (h : TermRel D env [] head head')
    (evaluated : Forall₂ (fun u t => Stands D p q (evaluate u) (evaluateIn t))
      (head :: arguments) (head' :: arguments'))
    (looked : (∀ name, evaluateIn (.atom name) = lookUpIn env name) ∨
      q ∧ evaluateIn head' = throw .tooDeep)
    (applied : ∀ f g vs ws, FunctionRel D f g → Forall₂ (Value.Lift (FunctionRel D)) vs ws →
      Stands D p q (perform f vs) (performIn g ws)) :
    Stands D p q (evalApplication evaluate perform head arguments)
      (evalApplicationIn evaluateIn performIn head' arguments') := by
  obtain ⟨first, rest⟩ := List.forall₂_cons.1 evaluated
  have direct : Stands D p q (applyTo evaluate perform head arguments)
      (evalApplicationIn evaluateIn performIn head' arguments') := by
    unfold applyTo evalApplicationIn
    rw [← rest.length_eq]
    refine (resolve_simulates h first looked).bind fun f g hfg => ?_
    refine (checkArity_simulates (functionRel_faithful.arity hfg) _).bind fun _ _ _ => ?_
    exact (Simulates.mapM rest).bind fun vs ws hvs => applied f g vs ws hfg hvs
  intro s r related
  rw [Run.run_evalApplication_uncached related.uncached]
  exact direct s r related

/-! ### Special forms -/

/-- The parameters of related lambda terms are the same, and the bodies are related. -/
theorem lambdaParts_matches {parts others : List (Term Value)}
    (h : TermRel D env [] (.compound parts) (.compound others))
    (special : (Term.compound others).specialForm? = some .lambda) :
    Matches (fun x y => x.1 = y.1 ∧ (∀ name ∈ x.1, IsProper name) ∧ TermRel D env x.1 x.2 y.2)
      (lambdaParts parts) (lambdaParts others) := by
  cases h with
  | @lambda _ _ parameters body other h =>
    unfold lambdaParts
    cases parameters with
    | atom name => exact .error rfl
    | value v => exact .error rfl
    | compound declared =>
      cases hnames : declareParameters [] declared with
      | error failure =>
        dsimp only
        rw [hnames]
        exact .error rfl
      | ok names =>
        obtain ⟨rfl, proper⟩ := declareParameters_eq_ok hnames
        dsimp only
        rw [hnames]
        refine .ok ⟨rfl, proper, ?_⟩
        rwa [List.append_nil, Term.declared_atoms] at h
  | define _ _ _ h' =>
    rw [specialForm?_of_define h'] at special
    cases special
  | parts _ notLambda h =>
    rw [partsRel_iff] at h
    have head := Term.head_of_specialForm? special
    obtain _ | ⟨_, _ | ⟨_, _ | ⟨_, _ | _⟩⟩⟩ := h
    · exact .error rfl
    · simp only [lambdaParts]
      exact .error rfl
    · simp only [lambdaParts]
      exact .error rfl
    · obtain rfl := Option.some.inj head
      exact absurd rfl (notLambda _ _)
    · simp only [lambdaParts]
      exact .error rfl

theorem evalLambda_simulates {parts others : List (Term Value)}
    (h : TermRel D env [] (.compound parts) (.compound others))
    (special : (Term.compound others).specialForm? = some .lambda) :
    Stands D p q (evalLambda parts) (evalLambdaIn env others) := by
  refine (Simulates.ofExcept (lambdaParts_matches h special)).bind ?_
  rintro ⟨names, body⟩ ⟨_, other⟩ ⟨rfl, proper, hbody⟩
  exact makeLambda_simulates fun serial => .lambda serial proper hbody

theorem evalCompound_simulates {parts others : List (Term Value)}
    (h : TermRel D env [] (.compound parts) (.compound others))
    (evaluated : ∀ u t, TermRel D env [] u t →
      Stands D p q (evaluate u) (evaluateIn t))
    (looked : (∀ name, evaluateIn (.atom name) = lookUpIn env name) ∨
      q ∧ ∀ t, evaluateIn t = throw .tooDeep)
    (applied : ∀ f g vs ws, FunctionRel D f g → Forall₂ (Value.Lift (FunctionRel D)) vs ws →
      Stands D p q (perform f vs) (performIn g ws)) :
    Stands D p q (evalCompound evaluate perform parts)
      (evalCompoundIn env evaluateIn performIn others) := by
  unfold evalCompound evalCompoundIn
  rw [h.specialForm?_eq]
  cases special : (Term.compound others).specialForm? with
  | none =>
    have related := h.parts_of_specialForm? (by simp [special]) (by simp [special])
    have each := related.imp fun u t => evaluated u t
    cases related with
    | nil => exact .fail rfl
    | cons first _ =>
      exact evalApplication_simulates first each (looked.imp_right fun h => ⟨h.1, h.2 _⟩) applied
  | some form =>
    cases form with
    | lambda => exact evalLambda_simulates h special
    | define => exact .fail rfl
    | conditional =>
      have related := h.parts_of_specialForm? (by simp [special]) (by simp [special])
      exact evalConditional_simulates (related.imp fun u t => evaluated u t)

/-- A closure takes the arguments into its environment, a lambda has them put in place of its
parameters. -/
theorem applyClosure_simulates {n m serial : Nat} {parameters : List String}
    {body other : Term Value} {vs ws : List Value}
    (proper : ∀ name ∈ parameters, IsProper name) (h : TermRel D env parameters body other)
    (values : Forall₂ (Value.Lift (FunctionRel D)) vs ws)
    (accepted : (Function.lambda serial parameters body).arity.accepts vs.length = true)
    (evaluated : ∀ env u t, TermRel D env [] u t →
      Stands D p q (eval n u) (evalIn m env t)) :
    Stands D p q
      (eval n (body.substitute (Bindings.ofList (parameters.zip vs))))
      (evalIn m (parameters.zip ws ++ env) other) := by
  have length : parameters.length = vs.length := by
    simpa [Function.arity, Arity.accepts, eq_comm] using accepted
  have inside : TermRel D (parameters.zip ws ++ env) []
      (body.substitute ((Bindings.ofList (parameters.zip vs)).hide [])) other :=
    h.substitute ⟨proper, values.imp fun _ _ => ValueRel.of_lift, length⟩ (by simp)
  rw [Bindings.hide_nil] at inside
  exact evaluated _ _ _ inside

/-- A value that was put in place is the one that its name is looked up to. -/
theorem lookUpIn_simulates {name : String} {v w : Value} (proper : IsProper name)
    (found : (env ++ D).lookup name = some w) (h : ValueRel D v w) :
    Stands D p q (pure v) (lookUpIn env name) := by
  rw [List.lookup_append, Option.or_eq_some_iff] at found
  rcases found with found | ⟨none, found⟩
  · rw [lookUpIn, found]
    exact .pure h.lift
  · rw [lookUpIn, none]
    refine .of_answers fun s r related => ?_
    obtain ⟨r', same, run⟩ := run_evalAtom name r
    have free : s.function? name = Option.none := related.free _ (Bindings.mem_of_ofList found)
    have defined : r.definition? name = some w := by
      rw [Session.definition?, related.definitions]
      exact found
    rw [related.atomAnswer_of_definition? proper free defined] at run
    exact ⟨.ok v, .ok w, s, r', .ok h.lift, .inl rfl, same, rfl, run⟩

theorem eval_succ_simulates {n m : Nat} (hq : q ∨ n < m)
    (evaluated : ∀ env u t, TermRel D env [] u t →
      Stands D p q (eval n u) (evalIn m env t))
    (applied : ∀ f g vs ws, FunctionRel D f g → Forall₂ (Value.Lift (FunctionRel D)) vs ws →
      Stands D p q (apply n f vs) (applyIn m g ws))
    (h : TermRel D env [] u t) :
    Stands D p q (eval (n + 1) u) (evalIn (m + 1) env t) := by
  have looked : (∀ name, evalIn m env (.atom name) = lookUpIn env name) ∨
      q ∧ ∀ t, evalIn m env t = throw .tooDeep := by
    cases m with
    | zero => exact .inr ⟨hq.resolve_right (by omega), fun _ => rfl⟩
    | succ m => exact .inl fun _ => rfl
  cases h with
  | @kept _ _ name free =>
    have none := free (by simp)
    rw [eval_atom, evalIn, lookUpIn, none]
    exact evalAtom_simulates functionRel_conforms name
  | put _ proper found h => exact lookUpIn_simulates proper found h
  | lambda parameters h =>
    exact evalCompound_simulates (.lambda parameters h) (evaluated env) looked applied
  | define parts others h h' =>
    exact evalCompound_simulates (.define parts others h h') (evaluated env) looked applied
  | parts notDefine notLambda h =>
    exact evalCompound_simulates (.parts notDefine notLambda h) (evaluated env) looked applied

theorem apply_succ_simulates {n m : Nat} {f g : Function Value} {vs ws : List Value}
    (evaluated : ∀ env u t, TermRel D env [] u t →
      Stands D p q (eval n u) (evalIn m env t))
    (applied : ∀ f g vs ws, FunctionRel D f g → Forall₂ (Value.Lift (FunctionRel D)) vs ws →
      Stands D p q (apply n f vs) (applyIn m g ws))
    (h : FunctionRel D f g) (values : Forall₂ (Value.Lift (FunctionRel D)) vs ws) :
    Stands D p q (apply (n + 1) f vs) (applyIn (m + 1) g ws) := by
  unfold apply Workings.apply applyIn
  rw [← values.length_eq]
  refine (checkArity_simulates (functionRel_faithful.arity h) _).bind fun _ _ accepted => ?_
  cases h with
  | leaf _ leaf =>
    cases f with
    | primitive primitive => exact call_simulates functionRel_faithful primitive applied values
    | host host => exact hostCall_simulates functionRel_faithful leaf values
    | lambda serial parameters body => cases leaf
  | lambda serial proper h =>
    dsimp only
    rw [opened_close]
    exact applyClosure_simulates proper h values accepted evaluated

/-- Each way of evaluation simulates the other. The first may be too deep alone unless it has
as much depth, and the second unless it has more. -/
theorem eval_simulates {n m : Nat} (hp : p ∨ m ≤ n) (hq : q ∨ n < m) :
    (∀ env u t, TermRel D env [] u t →
      Stands D p q (eval n u) (evalIn m env t)) ∧
    ∀ f g vs ws, FunctionRel D f g → Forall₂ (Value.Lift (FunctionRel D)) vs ws →
      Stands D p q (apply n f vs) (applyIn m g ws) := by
  induction n generalizing m with
  | zero =>
    rcases hp with allowed | none
    · exact ⟨fun _ _ _ _ => .left allowed _, fun _ _ _ _ _ _ => .left allowed _⟩
    · have allowed : q := hq.resolve_right (by omega)
      obtain rfl : m = 0 := by omega
      exact ⟨fun _ _ _ _ => .right allowed _, fun _ _ _ _ _ _ => .right allowed _⟩
  | succ n ih =>
    cases m with
    | zero =>
      have allowed : q := hq.resolve_right (by omega)
      exact ⟨fun _ _ _ _ => .right allowed _, fun _ _ _ _ _ _ => .right allowed _⟩
    | succ m =>
      have hq' : q ∨ n < m := hq.imp_right (by omega)
      obtain ⟨evaluated, applied⟩ := ih (hp.imp_right (by omega)) hq'
      exact ⟨fun _ _ _ h => eval_succ_simulates hq' evaluated applied h,
        fun _ _ _ _ h values => apply_succ_simulates evaluated applied h values⟩

end KinQuery
