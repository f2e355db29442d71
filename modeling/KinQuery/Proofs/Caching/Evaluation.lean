import KinQuery.Proofs.Caching.Steps

/-! Evaluation is tracked by evaluation of what resembles.

The induction is on the depth of the first evaluation. Where a value of the first is spelled in
the second, the first does nothing, so that what spells the value is followed by an induction of
its own. -/
namespace KinQuery

open List (Forall₂)

variable {C : Convention} {X : Comparison C} {w : World} {D : List (String × Value)}
  {K : Cache → Prop} {s r : Session} {v u : Value} {t t' : Term Value} {vs us : List Value}
  {head head' : Term Value} {arguments arguments' parts others : List (Term Value)} {p : Primitive}
  {m : Nat}

theorem exists_getElem?_of_forall₂ {α β : Type} {R : α → β → Prop} {as : List α} {bs : List β}
    (h : Forall₂ R as bs) {a : α} {i : Nat} (found : as[i]? = some a) :
    ∃ b, bs[i]? = some b ∧ R a b := by
  induction h generalizing i with
  | nil => cases found
  | @cons a' b as bs first _ ih =>
    cases i with
    | zero =>
      cases found
      exact ⟨b, rfl, first⟩
    | succ i => exact ih found

theorem exists_of_forall₂ {α β : Type} {R : α → β → Prop} {as : List α} {bs : List β}
    (h : Forall₂ R as bs) {a : α} (member : a ∈ as) : ∃ b ∈ bs, R a b := by
  obtain ⟨i, found⟩ := List.mem_iff_getElem?.1 member
  obtain ⟨b, found', related⟩ := exists_getElem?_of_forall₂ h found
  exact ⟨b, List.mem_of_getElem? found', related⟩

/-- The value resembles the other one, and holds no functions if one can see that of the term. -/
def Term.Agree (C : Convention) (t : Term Value) (v u : Value) : Prop :=
  v.Resembles C u ∧ (t.YieldsPlain → v.isPlain = true)

namespace Comparison

/-- Terms that resemble each other are evaluated alike, the first of them at this depth. -/
def Evaluates (X : Comparison C) (m : Nat) : Prop :=
  ∀ t u, t.Resembles C u → X.Tracks (t.Agree C) (eval m t) fun depth => eval depth u

/-- Where the second session would come to what the first did, it is answered alike. -/
def Answers (X : Comparison C) : Prop :=
  ∀ (m : Nat) (t head : Term Value) (arguments : List (Term Value)),
    t.Resembles C (.compound (head :: arguments)) → ∀ s r, X.First s → X.Second r →
      X.Met (Value.Resembles C) ((eval m t).run s)
        (fun depth => applyTo (eval depth) (apply depth) head arguments) r →
      X.Met (Value.Resembles C) ((eval m t).run s)
        (fun depth => evalApplication (eval depth) (apply depth) head arguments) r

/-! ### Applications -/

theorem applyTo_tracks {F : Function Value → Function Value → Prop} {A : Value → Value → Prop}
    (resolved : X.Tracks F (resolve (eval m) head) fun depth => resolve (eval depth) head')
    (arity : ∀ f g, F f g → f.arity = g.arity)
    (evaluated : Forall₂ (fun t u => X.Tracks (t.Agree C) (eval m t) fun depth => eval depth u)
      arguments arguments')
    (called : ∀ f g vs us, F f g → Forall₂ (Value.Resembles C) vs us →
      Forall₂ (fun t v => t.YieldsPlain → v.isPlain = true) arguments vs →
        X.Tracks A (apply m f vs) fun depth => apply depth g us) :
    X.Tracks A (applyTo (eval m) (apply m) head arguments)
      fun depth => applyTo (eval depth) (apply depth) head' arguments' := by
  unfold applyTo
  rw [← evaluated.length_eq]
  refine resolved.bind fun f g hfg => ?_
  refine (checkArity_tracks (arity f g hfg) _).bind fun _ _ _ => ?_
  exact (Tracks.mapM evaluated).bind fun vs us h => called f g vs us hfg h.1 h.2

theorem arity_eq_of_primitive (f g : Function Value) (h : f = .primitive p ∧ g = .primitive p) :
    f.arity = g.arity := by
  rw [h.1, h.2]

end Comparison

theorem eval_application (special : (Term.compound (head :: arguments)).specialForm? = none)
    (depth : Nat) : eval (depth + 1) (.compound (head :: arguments)) =
      evalApplication (eval depth) (apply depth) head arguments := by
  rw [eval_compound, evalCompound, special]

theorem run_mapM_values (items : List Value) (depth : Nat) (s : Session) :
    ((items.map Term.value).mapM (eval (depth + 1))).run s = (.ok items, s) := by
  induction items with
  | nil => rfl
  | cons item items ih =>
    rw [List.map_cons, List.mapM_cons]
    change (do
      let v ← pure item
      let vs ← (items.map Term.value).mapM (eval (depth + 1))
      pure (v :: vs) : Run (List Value)).run s = _
    rw [pure_bind, Run.run_bind_ok ih]
    rfl

/-- A list is what the primitive makes of its items. -/
theorem run_applyTo_values {items : List Value} (nonempty : items ≠ []) (depth : Nat)
    (s : Session) :
    (applyTo (eval (depth + 2)) (apply (depth + 2)) (.value (.function (.primitive .list)))
      (items.map .value)).run s = (.ok (.list items), s) := by
  have positive : 1 ≤ items.length := List.length_pos_of_ne_nil nonempty
  change (do
    Run.ofExcept ((Function.primitive .list).checkArity (items.map Term.value).length)
    let values ← (items.map Term.value).mapM (eval (depth + 2))
    apply (depth + 2) (.primitive .list) values : Run Value).run s = _
  rw [List.length_map, checkArity_list positive, Run.ofExcept_ok, pure_bind,
    Run.run_bind_ok (run_mapM_values items (depth + 1) s), apply_primitive, checkArity_list positive]
  rfl

theorem run_evalLambda {names : List String} {body : Term Value}
    (declared : declareParameters [] (names.map .atom) = .ok names) (s : Session) :
    (evalLambda [.atom "lambda", .compound (names.map .atom), body]).run s =
      (.ok (.function (.lambda (s.lambdas + 1) names body)),
        { s with lambdas := s.lambdas + 1 }) := by
  have made : lambdaParts [.atom "lambda", .compound (names.map .atom), body] =
      .ok (names, body) := by
    unfold lambdaParts
    dsimp only
    rw [declared]
    rfl
  unfold evalLambda
  rw [made]
  rfl

namespace Comparison

/-- A primitive that only reads, and looks into no function. -/
theorem apply_reads_tracks (reads : p.Reads) (other : p ≠ .equal)
    (h : Forall₂ (Value.Resembles C) vs us) :
    X.Tracks (Value.Resembles C) (apply m (.primitive p) vs)
      fun depth => apply depth (.primitive p) us := by
  cases m with
  | zero => exact .deep _
  | succ m =>
    refine .succ ?_
    simp only [apply_primitive]
    rw [← h.length_eq]
    exact (checkArity_tracks rfl _).bind fun _ _ _ => reads_tracks reads other h

/-! ### Values that are spelled -/

theorem agree_of_value {n : Nat → Run Value}
    (h : X.Tracks (Value.Resembles C) (pure v) n) :
    X.Tracks ((Term.value v).Agree C) (pure v) n := by
  refine h.ensure fun s a s' run => ?_
  cases run
  intro yields
  cases yields with
  | value plain => exact plain

/-- Lists are made by what spells them. -/
theorem applyTo_list_tracks {items : List Value} (nonempty : items ≠ [])
    (evaluated : ∀ v u, (Term.value v).Resembles C u → u ∈ head :: arguments →
      X.Tracks (Value.Resembles C) (pure v) fun depth => eval depth u)
    (h : Forall₂ (Term.Resembles C) (.value (.function (.primitive .list)) :: items.map .value)
      (head :: arguments)) :
    X.Tracks (Value.Resembles C) (pure (.list items))
      fun depth => applyTo (eval depth) (apply depth) head arguments := by
  obtain ⟨first, rest⟩ := List.forall₂_cons.1 h
  have resolved : X.Tracks (fun f g => Function.Resembles C f g ∧ f = .primitive .list)
      (resolve (eval 2) (.value (.function (.primitive .list)))) fun depth =>
        resolve (eval depth) head := by
    refine (resolve_tracks first (evaluated _ _ first (by simp))).ensure fun s f s' run => ?_
    cases run
    rfl
  have items_tracked : Forall₂
      (fun t u => X.Tracks (t.Agree C) (eval 2 t) fun depth => eval depth u)
      (items.map .value) arguments := by
    rw [List.forall₂_map_left_iff, List.forall₂_iff_zip] at rest ⊢
    refine ⟨rest.1, fun {v u} pair => ?_⟩
    have member : u ∈ head :: arguments := List.mem_cons_of_mem _ (List.of_mem_zip pair).2
    exact agree_of_value (evaluated v u (rest.2 pair) member)
  -- The first session does nothing, but it might as well apply the primitive to the items.
  have direct := applyTo_tracks (A := Value.Resembles C) resolved
    (fun f g h => (Function.Resembles.counterpart h.1).arity) items_tracked ?_
  · intro s r hs hr
    have met := direct s r hs hr
    rw [run_applyTo_values nonempty 0 s] at met
    exact met
  · rintro f g vs us ⟨resembles, rfl⟩ values -
    have same := resembles.counterpart
    cases same with
    | primitive other pure => exact apply_reads_tracks ⟨by decide, by decide, pure⟩ other values

theorem specialForm?_of_list (h : (Term.value (.function (.primitive .list))).Resembles C head) :
    (Term.compound (head :: arguments)).specialForm? = none :=
  h.form_eq.symm

/-- What spells a value comes to it. -/
theorem pure_tracks (answers : X.Answers) (h : (Term.value v).Resembles C t) :
    X.Tracks (Value.Resembles C) (pure v) fun depth => eval depth t := by
  -- The depth of the first evaluation says nothing here: the term that spells the value is
  -- what gets smaller.
  induction t using Term.induction generalizing v with
  | atom name =>
    rcases h.symm.atom_cases with same | ⟨u, same, word, rfl⟩
    · cases same
    · cases same
      exact .succ (pure_word_tracks word (Term.IsTidy.value_iff.1 h.left))
  | value u => exact .succ (.pure (Term.Resembles.value_iff.1 h))
  | compound parts ih =>
    have spelling := h.spelling
    refine .succ ?_
    cases spelling with
    | @list items _ pairs =>
      obtain _ | ⟨first, rest⟩ := id pairs
      rename_i head arguments
      have special : (Term.compound (_ :: arguments)).specialForm? = none :=
        specialForm?_of_list first
      have direct := applyTo_list_tracks h.ne_nil (fun v u same member => ih u member same) pairs
      intro s r hs hr
      simp only [eval_application special]
      exact answers 1 (.value (.list items)) head arguments h s r hs hr (direct s r hs hr)
    | lambda serial declared locals tidy tidy' written =>
      intro s r hs hr
      exact .ok (.lambda serial _ declared locals tidy tidy' written) hs (hr.withLambdas _)
        (.always fun _ => run_evalLambda declared r)

/-! ### Functions -/

/-- Bodies that are written alike, with arguments that resemble each other put in. -/
theorem body_resembles {names : List String} {body other : Term Value}
    (locals : ∀ name ∈ names, C.isLocal name) (tidy : body.IsTidy C names)
    (tidy' : other.IsTidy C names) (written : body.expand = other.expand)
    (h : Forall₂ (Value.Resembles C) vs us) (length : names.length = vs.length) :
    (body.substitute (Bindings.ofList (names.zip vs))).Resembles C
      (other.substitute (Bindings.ofList (names.zip us))) := by
  have found {name : String} {v : Value} {values : List Value}
      (hv : Bindings.ofList (names.zip values) name = some v) : name ∈ names ∧ v ∈ values :=
    List.of_mem_zip (Bindings.mem_of_ofList hv)
  have opened (values : List Value) : (Bindings.ofList (names.zip values)).AreOpen :=
    fun name v hv => C.opened name (locals name (found hv).1)
  obtain ⟨left, right⟩ := Value.Resembles.tidy_items h
  refine ⟨?_, ?_, ?_⟩
  · refine tidy.substitute (opened vs) (fun name v hv => left v (found hv).2)
      fun name member _ => ?_
    rcases lookup_zip h length name with ⟨absent, -⟩ | ⟨-, v, -, some, -⟩
    · exact absurd member absent
    · exact .inr (by simp [Bindings.ofList, some])
  · refine tidy'.substitute (opened us) (fun name v hv => right v (found hv).2)
      fun name member _ => ?_
    rcases lookup_zip h length name with ⟨absent, -⟩ | ⟨-, -, u, -, some, -⟩
    · exact absurd member absent
    · exact .inr (by simp [Bindings.ofList, some])
  · have inside (values : List Value) (name : String) (v : Value)
        (hv : Bindings.ofList (names.zip values) name = some v) : C.isLocal name :=
      locals name (found hv).1
    rw [Term.expand_substitute C.opened tidy.formed tidy.legible tidy.apart (inside vs),
      Term.expand_substitute C.opened tidy'.formed tidy'.legible tidy'.apart (inside us), written]
    refine Term.expand_substitute_congr fun name => ?_
    unfold Bindings.ofList
    rcases lookup_zip h length name with ⟨-, none, none'⟩ | ⟨-, v, u, some, some', related⟩
    · rw [none, none']
    · rw [some, some', Option.map_some, Option.map_some, related.expand]

theorem apply_succ_tracks {f g : Function Value}
    (evaluated : X.Evaluates m) (applied : X.Applies (apply m) apply)
    (h : Function.Resembles C f g) (values : Forall₂ (Value.Resembles C) vs us) :
    X.Tracks (Value.Resembles C) (apply (m + 1) f vs) fun depth => apply depth g us := by
  have same := h.counterpart
  refine .succ ?_
  cases same with
  | primitive other pure =>
    simp only [apply_primitive]
    rw [← values.length_eq]
    exact (checkArity_tracks rfl _).bind fun _ _ _ => call_tracks other pure applied values
  | @lambda serial serial' names body body' locals tidy tidy' written =>
    have arity : (Function.lambda serial names body : Function Value).arity =
        (Function.lambda serial' names body').arity := rfl
    simp only [apply_lambda]
    rw [← values.length_eq]
    refine (checkArity_tracks arity _).bind fun _ _ accepted => ?_
    have length : names.length = vs.length := by
      simpa [Function.arity, Arity.accepts, eq_comm] using accepted
    exact (evaluated _ _ (body_resembles locals tidy tidy' written values length)).mono
      fun _ _ h => h.1

/-- What a primitive makes holds no functions, if one can see that of its arguments. -/
theorem apply_isPlain {s' : Session}
    (known : p.yieldsPlain = true ∨ p.Reads ∧ ∀ v ∈ vs, v.isPlain = true)
    (run : (apply m (.primitive p) vs).run s = (.ok v, s')) : v.isPlain = true := by
  have reads : p.Reads := by
    rcases known with yields | ⟨reads, -⟩
    · refine ⟨?_, ?_, ?_⟩ <;> · rintro rfl; cases yields
    · exact reads
  cases m with
  | zero => cases run
  | succ m =>
    rw [apply_primitive, Run.run_bind, Run.run_ofExcept] at run
    cases accepted : (Function.primitive p : Function Value).checkArity vs.length with
    | error f =>
      rw [accepted] at run
      cases run
    | ok _ =>
      rw [accepted] at run
      obtain ⟨t, -, called⟩ := Primitive.run_call reads (apply m) vs s
      change (p.call (apply m) vs).run s = _ at run
      rw [called] at run
      cases answer : p.answer s.tree.1 s.dictionary s.today vs with
      | error f =>
        rw [answer] at run
        cases run
      | ok a =>
        rw [answer] at run
        cases run
        rcases known with yields | ⟨-, plain⟩
        · exact Primitive.answer_data yields v answer
        · exact Primitive.answer_data_of_data plain v answer

/-- Comparing values of which one holds no functions. -/
theorem apply_equal_tracks (h : Forall₂ (Value.Resembles C) vs us)
    (plain : vs.length = 2 → ∃ v ∈ vs, v.isPlain = true) :
    X.Tracks (Value.Resembles C) (apply m (.primitive .equal) vs)
      fun depth => apply depth (.primitive .equal) us := by
  cases m with
  | zero => exact .deep _
  | succ m =>
    refine .succ ?_
    simp only [apply_primitive]
    rw [← h.length_eq]
    refine (checkArity_tracks rfl _).bind fun _ _ accepted => ?_
    obtain _ | ⟨ha, _ | ⟨hb, _ | ⟨hc, rest⟩⟩⟩ := h
    · cases accepted
    · cases accepted
    · rename_i a a' b b'
      have same : a.same b = a'.same b' := ha.same_eq hb (by simpa using plain rfl)
      change X.Tracks _ (Pure.pure (Value.boolean (a.same b))) fun _ =>
        Pure.pure (Value.boolean (a'.same b'))
      rw [← same]
      exact .pure (.refl (.boolean _))
    · simp [Function.arity, Primitive.arity, Arity.accepts] at accepted

/-! ### Compounds -/

theorem specialForm?_of_primitive (p : Primitive) (arguments : List (Term Value)) :
    (Term.compound (.atom p.name :: arguments)).specialForm? = none := by
  cases p <;> rfl

/-- An application of a primitive to what it looks into no functions of. -/
theorem applyTo_primitive_tracks (evaluated : X.Evaluates m)
    (applied : X.Applies (apply m) apply)
    (head : head' = .atom p.name ∨ head' = .value (.function (.primitive p)))
    (other : p ≠ .equal) (pure : p ≠ .putKinshipTerm)
    (h : Forall₂ (Term.Resembles C) arguments arguments') :
    X.Tracks ((Term.compound (.atom p.name :: arguments)).Agree C)
      (applyTo (eval m) (apply m) (.atom p.name) arguments)
      fun depth => applyTo (eval depth) (apply depth) head' arguments' := by
  refine applyTo_tracks (resolve_primitive_tracks head) arity_eq_of_primitive
    (h.imp fun t u => evaluated t u) ?_
  rintro f g vs us ⟨rfl, rfl⟩ values plain
  have resembles : Function.Resembles C (.primitive p) (.primitive p) := .primitive other pure
  refine (applied _ _ vs us resembles values).ensure fun s v s' run yields => ?_
  generalize same : Primitive.name p = name at yields
  cases yields with
  | @measure q _ measure =>
    obtain rfl := Primitive.name_inj.1 same
    exact apply_isPlain (.inl measure) run
  | @collect q _ notFilter notMap each =>
    obtain rfl := Primitive.name_inj.1 same
    refine apply_isPlain (.inr ⟨⟨notFilter, notMap, pure⟩, fun v member => ?_⟩) run
    obtain ⟨t, inside, known⟩ := exists_of_forall₂ plain.flip member
    exact known (each t inside)

/-- Comparisons, where one can see that one side holds no functions. -/
theorem applyTo_equal_tracks (evaluated : X.Evaluates m)
    (plain : arguments.length = 2 → ∃ t ∈ arguments, t.YieldsPlain)
    (h : Forall₂ (Term.Resembles C) arguments arguments') :
    X.Tracks ((Term.compound (.atom Primitive.equal.name :: arguments)).Agree C)
      (applyTo (eval m) (apply m) (.atom Primitive.equal.name) arguments)
      fun depth => applyTo (eval depth) (apply depth) (.atom Primitive.equal.name) arguments' := by
  refine applyTo_tracks (resolve_primitive_tracks (.inl rfl)) arity_eq_of_primitive
    (h.imp fun t u => evaluated t u) ?_
  rintro f g vs us ⟨rfl, rfl⟩ values data
  refine (apply_equal_tracks values fun two => ?_).ensure fun s v s' run _ =>
    apply_isPlain (.inl rfl) run
  obtain ⟨t, member, yields⟩ := plain (data.length_eq.trans two)
  obtain ⟨v, inside, known⟩ := exists_of_forall₂ data member
  exact ⟨v, inside, known yields⟩

/-- Applications of what is no primitive by its name. -/
theorem applyTo_other_tracks (evaluated : X.Evaluates m)
    (applied : X.Applies (apply m) apply) (notPrimitive : ∀ p : Primitive, head ≠ .atom p.name)
    (first : head.Resembles C head') (h : Forall₂ (Term.Resembles C) arguments arguments') :
    X.Tracks ((Term.compound (head :: arguments)).Agree C)
      (applyTo (eval m) (apply m) head arguments)
      fun depth => applyTo (eval depth) (apply depth) head' arguments' := by
  have resolved := resolve_tracks first ((evaluated head head' first).mono fun _ _ h => h.1)
  refine applyTo_tracks resolved (fun f g h => (Function.Resembles.counterpart h).arity)
    (h.imp fun t u => evaluated t u) ?_
  rintro f g vs us resembles values -
  refine (applied f g vs us resembles values).mono fun v u related => ⟨related, fun yields => ?_⟩
  cases yields with
  | measure _ _ => exact absurd rfl (notPrimitive _)
  | collect _ _ _ => exact absurd rfl (notPrimitive _)

theorem applyTo_resembling_tracks (evaluated : X.Evaluates m)
    (applied : X.Applies (apply m) apply) (first : head.Resembles C head')
    (h : Forall₂ (Term.Resembles C) arguments arguments') :
    X.Tracks ((Term.compound (head :: arguments)).Agree C)
      (applyTo (eval m) (apply m) head arguments)
      fun depth => applyTo (eval depth) (apply depth) head' arguments' := by
  by_cases named : ∃ p : Primitive, head = .atom p.name
  · obtain ⟨p, rfl⟩ := named
    obtain ⟨-, related⟩ := first.left.of_ofName? p.ofName?_name
    rcases related.left.function_cases with ⟨q, same, other, pure⟩ | ⟨_, _, _, same, -⟩
    · cases same
      refine applyTo_primitive_tracks evaluated applied ?_ other pure h
      rcases first.atom_cases with same | ⟨v, rfl, word, key⟩
      · exact .inl same
      · exact .inr (congrArg _ (word.eq_primitive_of_key key))
    · cases same
  · exact applyTo_other_tracks evaluated applied (fun p same => named ⟨p, same⟩) first h

/-- An application in the first session is one in the second, or answered there. -/
theorem eval_application_tracks (answers : X.Answers)
    (special : (Term.compound (head :: arguments)).specialForm? = none)
    (special' : (Term.compound (head' :: arguments')).specialForm? = none)
    (h : (Term.compound (head :: arguments)).Resembles C (.compound (head' :: arguments')))
    (direct : X.Tracks ((Term.compound (head :: arguments)).Agree C)
      (applyTo (eval m) (apply m) head arguments)
      fun depth => applyTo (eval depth) (apply depth) head' arguments') :
    X.Tracks ((Term.compound (head :: arguments)).Agree C)
      (eval (m + 1) (.compound (head :: arguments)))
      fun depth => eval depth (.compound (head' :: arguments')) := by
  refine .succ fun s r hs hr => ?_
  simp only [eval_application special']
  have met := direct s r hs hr
  have run : (eval (m + 1) (.compound (head :: arguments))).run s =
      (applyTo (eval m) (apply m) head arguments).run s := by
    rw [eval_application special, Run.run_evalApplication_uncached hs.cache]
  rw [← run] at met
  have answered := answers (m + 1) _ head' arguments' h s r hs hr (met.mono fun _ _ h => h.1)
  exact answered.ensure met.known

theorem evalLambda_tracks {names : List String} {body other : Term Value}
    (declared : declareParameters [] (names.map .atom) = .ok names)
    (locals : ∀ name ∈ names, C.isLocal name) (tidy : body.IsTidy C names)
    (tidy' : other.IsTidy C names) (written : body.expand = other.expand) :
    X.Tracks (Value.Resembles C) (evalLambda [.atom "lambda", .compound (names.map .atom), body])
      fun _ => evalLambda [.atom "lambda", .compound (names.map .atom), other] := by
  intro s r hs hr
  rw [run_evalLambda declared]
  exact .ok (.lambda _ _ declared locals tidy tidy' written) (hs.withLambdas _)
    (hr.withLambdas _) (.always fun _ => run_evalLambda declared r)

theorem evalLambda_refused_tracks {A : Value → Value → Prop}
    (refused : ∀ known, lambdaParts parts ≠ .ok known)
    (refused' : ∀ known, lambdaParts others ≠ .ok known) :
    X.Tracks A (evalLambda parts) fun _ => evalLambda others :=
  (Tracks.ofExcept (lambdaParts_matches_of_refused (A := fun _ _ => False) refused refused')).bind
    fun _ _ h => h.elim

/-- Lambda terms of three parts, whatever their parameters are. -/
theorem evalLambda_parts_tracks {parameters body other : Term Value}
    (locals : ∀ name ∈ parameters.declared, IsProper name → C.isLocal name)
    (tidy : body.IsTidy C parameters.declared) (tidy' : other.IsTidy C parameters.declared)
    (written : body.expand = other.expand) :
    X.Tracks (Value.Resembles C) (evalLambda [.atom "lambda", parameters, body])
      fun _ => evalLambda [.atom "lambda", parameters, other] := by
  cases parameters with
  | atom name => exact evalLambda_refused_tracks (fun _ h => nomatch h) fun _ h => nomatch h
  | value v => exact evalLambda_refused_tracks (fun _ h => nomatch h) fun _ h => nomatch h
  | compound declared =>
    cases made : declareParameters [] declared with
    | error f =>
      have refused (body : Term Value) (known : List String × Term Value) :
          lambdaParts [.atom "lambda", .compound declared, body] ≠ .ok known := by
        intro h
        change (declareParameters [] declared).map (·, body) = .ok known at h
        rw [made] at h
        cases h
      exact evalLambda_refused_tracks (refused body) (refused other)
    | ok names =>
      obtain ⟨rfl, proper⟩ := declareParameters_eq_ok made
      rw [Term.declared_atoms] at locals tidy tidy'
      exact evalLambda_tracks made (fun name member => locals name member (proper name member)) tidy
        tidy' written

theorem not_yieldsPlain_of_form (form : SpecialForm)
    (special : (Term.compound parts).specialForm? = some form) :
    ¬(Term.compound parts).YieldsPlain := by
  intro yields
  cases yields with
  | measure _ _ =>
    rw [specialForm?_of_primitive] at special
    cases special
  | collect _ _ _ =>
    rw [specialForm?_of_primitive] at special
    cases special

/-- Compounds whose parts resemble each other, and which define nothing. -/
theorem evalCompound_parts_tracks (answers : X.Answers)
    (evaluated : X.Evaluates m) (applied : X.Applies (apply m) apply)
    (h : (Term.compound parts).Resembles C (.compound others))
    (notDefine : parts.head? ≠ some (.atom "define"))
    (notLambda : ∀ parameters body, parts ≠ [.atom "lambda", parameters, body])
    (notLambda' : ∀ parameters body, others ≠ [.atom "lambda", parameters, body])
    (each : Forall₂ (Term.Resembles C) parts others) :
    X.Tracks ((Term.compound parts).Agree C) (eval (m + 1) (.compound parts))
      fun depth => eval depth (.compound others) := by
  have same : (Term.compound parts).specialForm? = (Term.compound others).specialForm? := by
    cases each with
    | nil => rfl
    | cons first _ => exact first.form_eq
  have plainly {n : Nat → Run Value} (form : SpecialForm)
      (special : (Term.compound parts).specialForm? = some form)
      (tracked : X.Tracks (Value.Resembles C) (evalCompound (eval m) (apply m) parts) n) :
      X.Tracks ((Term.compound parts).Agree C) (eval (m + 1) (.compound parts)) n :=
    tracked.mono fun v u related =>
      ⟨related, fun yields => absurd yields (not_yieldsPlain_of_form _ special)⟩
  cases special : (Term.compound parts).specialForm? with
  | none =>
    have special' := same ▸ special
    cases each with
    | nil => exact .succ (.fail rfl)
    | cons first rest =>
      exact eval_application_tracks answers special special' h
        (applyTo_resembling_tracks evaluated applied first rest)
  | some form =>
    have special' := same ▸ special
    refine plainly form special (.succ ?_)
    simp only [eval_compound, evalCompound, special, special']
    cases form with
    | define => exact absurd (Term.head_of_specialForm? special) notDefine
    | lambda =>
      exact evalLambda_refused_tracks (lambdaParts_ne_ok special notLambda)
        (lambdaParts_ne_ok special' notLambda')
    | conditional =>
      exact evalConditional_tracks (each.imp fun t u related =>
        (evaluated t u related).mono fun _ _ h => h.1)

/-- A compound that spells a value in the first session. -/
theorem compound_value_tracks
    (evaluated : X.Evaluates m) (applied : X.Applies (apply m) apply)
    (h : (Term.compound parts).Resembles C (.value u)) :
    X.Tracks ((Term.compound parts).Agree C) (eval (m + 1) (.compound parts))
      fun depth => eval depth (.value u) := by
  have spelling := h.symm.spelling
  intro s r hs hr
  cases spelling with
  | @list items _ pairs =>
    have nonempty := h.symm.ne_nil
    obtain _ | ⟨first, rest⟩ := pairs
    have rest' := (rest.imp fun _ _ h => h.symm).flip
    have met := applyTo_resembling_tracks evaluated applied first.symm rest' s r hs hr
    rw [eval_application (specialForm?_of_list first), Run.run_evalApplication_uncached hs.cache]
    refine met.congr 2 fun depth deep => ?_
    obtain ⟨depth, rfl⟩ : ∃ d, depth = d + 2 := ⟨depth - 2, by omega⟩
    rw [run_applyTo_values nonempty]
    rfl
  | @lambda serial names body other declared locals tidy tidy' written =>
    change X.Met _ ((evalLambda _).run s) _ r
    rw [run_evalLambda declared s]
    refine .ok ⟨.lambda _ serial declared locals tidy' tidy written.symm, fun yields => ?_⟩
      (hs.withLambdas _) hr (Run.Ends.always fun _ => rfl).succ
    exact absurd yields (not_yieldsPlain_of_form .lambda rfl)

theorem eval_succ_tracks (answers : X.Answers)
    (evaluated : X.Evaluates m) (applied : X.Applies (apply m) apply)
    (h : t.Resembles C t') :
    X.Tracks (t.Agree C) (eval (m + 1) t) fun depth => eval depth t' := by
  cases t with
  | value v => exact agree_of_value (pure_tracks answers h)
  | atom name =>
    have literal (yields : (Term.atom name : Term Value).YieldsPlain) :
        Kind.recognize name ≠ none := by
      cases yields with
      | literal literal => exact literal
    rcases h.atom_cases with rfl | ⟨v, rfl, word, rfl⟩
    · exact .succ ((evalAtom_tracks h.left).mono fun v u related =>
        ⟨related.1, fun yields => related.2 (literal yields)⟩)
    · have tidy := Term.IsTidy.value_iff.1 h.right
      exact .succ ((evalAtom_word_tracks word tidy).mono fun v u related =>
        ⟨related.1, fun yields => related.2 (literal yields)⟩)
  | compound parts =>
    cases t' with
    | atom name => rcases h.symm.atom_cases with same | ⟨v, same, -⟩ <;> cases same
    | value u => exact compound_value_tracks evaluated applied h
    | compound others =>
      have same := h.counterpart
      cases same with
      | define first second =>
        have special := specialForm?_of_define first
        have special' := specialForm?_of_define second
        refine .succ ?_
        simp only [eval_compound, evalCompound, special, special']
        exact .fail rfl
      | lambda locals tidy tidy' written =>
        have tracked := evalLambda_parts_tracks (X := X) locals tidy tidy' written
        exact .succ (tracked.mono fun v u related =>
          ⟨related, fun yields => absurd yields (not_yieldsPlain_of_form .lambda rfl)⟩)
      | equal plain each =>
        exact eval_application_tracks answers (specialForm?_of_primitive .equal _)
          (specialForm?_of_primitive .equal _) h (applyTo_equal_tracks evaluated plain each)
      | parts notDefine notLambda notLambda' each =>
        exact evalCompound_parts_tracks answers evaluated applied h notDefine notLambda notLambda'
          each

/-- Evaluation and application of what resembles. -/
theorem eval_tracks (answers : X.Answers) (m : Nat) : X.Evaluates m ∧ X.Applies (apply m) apply := by
  induction m with
  | zero => exact ⟨fun _ _ _ => .deep _, fun _ _ _ _ _ _ => .deep _⟩
  | succ m ih =>
    obtain ⟨evaluated, applied⟩ := ih
    exact ⟨fun _ _ h => eval_succ_tracks answers evaluated applied h,
      fun _ _ _ _ h values => apply_succ_tracks evaluated applied h values⟩

end Comparison
end KinQuery
