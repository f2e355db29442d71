import KinQuery.Proofs.Caching.Tracking

/-! The steps of evaluation that are tracked: atoms, heads, branches, and calls of primitives. -/
namespace KinQuery

open List (Forall₂)

variable {C : Convention} {X : Comparison C} {w : World} {D : List (String × Value)}
  {K : Cache → Prop} {s r : Session} {name : String} {v v' u u' : Value} {t t' : Term Value}
  {vs us : List Value} {p : Primitive}

/-- Primitives that only read call nothing. -/
theorem Primitive.Reads.call_eq (reads : p.Reads)
    (perform perform' : Function Value → List Value → Run Value) (arguments : List Value) :
    p.call perform arguments = p.call perform' arguments := by
  cases p
  case filter => exact absurd rfl reads.1
  case map => exact absurd rfl reads.2.1
  all_goals rfl

namespace Comparison

/-! ### Atoms -/

/-- Atoms stand for values that resemble each other. -/
theorem atomAnswer_tracks (hs : X.First s) (hr : X.Second r) (tidy : (Term.atom name).IsTidy C []) :
    Matches (fun v u => v.Resembles C u ∧ (Kind.recognize name ≠ none → v.isPlain = true))
        (atomAnswer s name) (atomAnswer r name) ∨
      ¬X.strict ∧ ∃ f, atomAnswer s name = .error f := by
  unfold atomAnswer
  rw [hs.function?, hr.function?, hs.definition?, hr.definition?, hs.tree, hr.tree, hs.today,
    hr.today]
  cases Kind.recognize name with
  | some kind =>
    dsimp only
    left
    cases h : literalAnswer kind name C.world.tree C.world.today with
    | error f => exact .error rfl
    | ok v =>
      have plain := literalAnswer_isPlain h
      have spelled : v.IsSpelled (fun _ => True) (fun _ => True) C.world :=
        literalAnswer_plain C.plain (Term.obeys_atom.1 tidy.obeys).digits v h
      exact .ok ⟨.refl (.of_isPlain plain spelled), fun _ => plain⟩
  | none =>
    cases h : Primitive.ofName? name with
    | some p => exact .inl (.ok ⟨(tidy.of_ofName? h).2, fun h => absurd rfl h⟩)
    | none =>
      dsimp only [Option.map_none]
      cases found : X.first.lookup name with
      | some v =>
        obtain ⟨u, found', resembles⟩ := X.included.values name v found
        rw [found']
        exact .inl (.ok ⟨resembles, fun h => absurd rfl h⟩)
      | none =>
        by_cases strict : X.strict
        · rw [X.names strict name found]
          exact .inl (.error rfl)
        · exact .inr ⟨strict, _, rfl⟩

theorem evalAtom_tracks (tidy : (Term.atom name).IsTidy C []) :
    X.Tracks (fun v u => v.Resembles C u ∧ (Kind.recognize name ≠ none → v.isPlain = true))
      (evalAtom name) fun _ => evalAtom name := by
  refine .of_answers fun s r hs hr => ?_
  obtain ⟨s', same, first⟩ := run_evalAtom name s
  obtain ⟨r', same', second⟩ := run_evalAtom name r
  exact ⟨_, _, s', r', atomAnswer_tracks hs hr tidy, same, same', first, fun _ => second⟩

theorem isPlain_of_recognize (word : v.IsWord) (literal : Kind.recognize v.key ≠ none) :
    v.isPlain = true := by
  let s : Session := { today := ⟨2000, 1, 1, by decide, by decide, by decide, by decide⟩ }
  rcases word.literalAnswer_key s.tree.1 s.today with ⟨kind, -, answer⟩ | ⟨p, rfl⟩
  · exact literalAnswer_isPlain answer
  · rw [Value.key, Value.spell, Kind.recognize_primitive] at literal
    exact absurd rfl literal

/-- A word stands for the value that it spells, in the first session -/
theorem evalAtom_word_tracks (word : v.IsWord) (tidy : v.IsTidy C) :
    X.Tracks (fun a b => a.Resembles C b ∧ (Kind.recognize v.key ≠ none → a.isPlain = true))
      (evalAtom v.key) fun _ => pure v := by
  refine .of_answers fun s r hs hr => ?_
  obtain ⟨s', same, run⟩ := run_evalAtom v.key s
  refine ⟨.ok v, .ok v, s', r, .inl (.ok ⟨.refl tidy, isPlain_of_recognize word⟩), same,
    .inl rfl, ?_, fun _ => rfl⟩
  rw [run, word.atomAnswer_key]

/-- and in the second. -/
theorem pure_word_tracks (word : v.IsWord) (tidy : v.IsTidy C) :
    X.Tracks (Value.Resembles C) (pure v) fun _ => evalAtom v.key := by
  refine .of_answers fun s r hs hr => ?_
  obtain ⟨r', same, run⟩ := run_evalAtom v.key r
  refine ⟨.ok v, .ok v, s, r', .inl (.ok (.refl tidy)), .inl rfl, same, rfl, fun _ => ?_⟩
  rw [run, word.atomAnswer_key]

/-! ### Heads -/

theorem evalToFunction_tracks {eval : Term Value → Run Value}
    {evalIn : Nat → Term Value → Run Value}
    (evaluated : X.Tracks (Value.Resembles C) (eval t) (evalIn · t')) :
    X.Tracks (Function.Resembles C) (evalToFunction eval t)
      fun depth => evalToFunction (evalIn depth) t' := by
  refine evaluated.bind fun v u h => ?_
  have lift := h.lift
  cases lift with
  | function related => exact .pure related
  | _ => exact .fail rfl

end Comparison

namespace Session.Shows

/-- The name of a primitive is resolved to it. -/
theorem resolve_primitive (h : s.Shows w D K) (undefined : D.lookup p.name = none)
    (eval : Term Value → Run Value) :
    (resolve eval (.atom p.name)).run s = (.ok (.primitive p), s) := by
  unfold resolve
  rw [Run.run_bind_ok (Run.run_get s), h.definition?, h.function?, undefined, p.ofName?_name]
  rfl

/-- A name that is that of no function is evaluated. -/
theorem resolve_other (h : s.Shows w D K) (notPrimitive : Primitive.ofName? name = none)
    (notDefined : ∀ f, D.lookup name ≠ some (.function f)) (eval : Term Value → Run Value) :
    (resolve eval (.atom name)).run s = (evalToFunction eval (.atom name)).run s := by
  unfold resolve
  rw [Run.run_bind_ok (Run.run_get s), h.definition?, h.function?, notPrimitive]
  cases found : D.lookup name with
  | none => rfl
  | some v =>
    cases v with
    | function f => exact absurd found (notDefined f)
    | _ => rfl

/-- The word of a value is resolved to a primitive, or evaluated. -/
theorem resolve_word (h : s.Shows w D K) (word : v.IsWord) (undefined : D.lookup v.key = none) :
    (∃ p, v = .function (.primitive p) ∧
      ∀ eval, (resolve eval (.atom v.key)).run s = (.ok (.primitive p), s)) ∨
    ∀ eval, (resolve eval (.atom v.key)).run s = (evalToFunction eval (.atom v.key)).run s := by
  cases named : Primitive.ofName? v.key with
  | none => exact .inr (h.resolve_other named (by simp [undefined]))
  | some p =>
    have spelled : p.name = v.key := by simpa using List.find?_some named
    refine .inl ⟨p, word.eq_primitive_of_key spelled.symm, fun eval => ?_⟩
    rw [← spelled] at undefined ⊢
    exact h.resolve_primitive undefined eval

/-- A name that nothing bears is resolved to no function. -/
theorem resolve_unknown (h : s.Shows w D K) (notPrimitive : Primitive.ofName? name = none)
    (undefined : D.lookup name = none) (depth : Nat) :
    ∃ f s', (resolve (eval (depth + 1)) (.atom name)).run s = (.error (.failed f), s') := by
  obtain ⟨s', -, run⟩ := run_evalAtom name s
  rw [h.resolve_other notPrimitive (by simp [undefined])]
  change ∃ f t, (evalAtom name >>= _).run s = _
  cases answer : atomAnswer s name with
  | error f =>
    rw [answer] at run
    exact ⟨f, s', Run.run_bind_error run⟩
  | ok v =>
    rw [answer] at run
    rw [Run.run_bind_ok run]
    have plain : v.isPlain = true := by
      rcases atomAnswer_ok answer with plain | ⟨f, found, -⟩ | found
      · exact plain
      · rw [h.function?, notPrimitive] at found
        cases found
      · rw [h.definition?, undefined] at found
        cases found
    cases v with
    | function f => simp [Value.isPlain] at plain
    | _ => exact ⟨_, s', rfl⟩

theorem resolve_function (h : s.Shows w D K) {f : Function Value}
    (defined : D.lookup name = some (.function f)) (eval : Term Value → Run Value) :
    (resolve eval (.atom name)).run s = (.ok f, s) := by
  unfold resolve
  rw [Run.run_bind_ok (Run.run_get s), h.definition?, defined]
  rfl

end Session.Shows

namespace Comparison

theorem not_isOpen_primitive (p : Primitive) : ¬IsOpen p.name :=
  fun opened => opened.ne_primitive p rfl

theorem not_isOpen_word (word : v.IsWord) : ¬IsOpen v.key :=
  fun opened => opened.key_ne word rfl

/-- Heads that are one name. -/
theorem resolve_atom_tracks {m : Nat} (tidy : (Term.atom name).IsTidy C [])
    (general : X.Tracks (Function.Resembles C) (evalToFunction (eval m) (.atom name))
      fun depth => evalToFunction (eval depth) (.atom name)) :
    X.Tracks (Function.Resembles C) (resolve (eval m) (.atom name))
      fun depth => resolve (eval depth) (.atom name) := by
  intro s r hs hr
  have general := general s r hs hr
  cases named : Primitive.ofName? name with
  | some p =>
    obtain ⟨rfl, resembles⟩ := tidy.of_ofName? named
    obtain ⟨undefined, undefined'⟩ := X.lookup_eq_none (not_isOpen_primitive p)
    rw [hs.resolve_primitive undefined]
    exact .ok resembles hs hr (.always fun _ => hr.resolve_primitive undefined' _)
  | none =>
    have other (notDefined : ∀ f, X.first.lookup name ≠ some (.function f))
        (notDefined' : ∀ f, X.second.lookup name ≠ some (.function f)) :
        X.Met (Function.Resembles C) ((resolve (eval m) (.atom name)).run s)
          (fun depth => resolve (eval depth) (.atom name)) r := by
      rw [hs.resolve_other named notDefined]
      exact general.congr 0 fun depth _ => hr.resolve_other named notDefined' _
    cases found : X.first.lookup name with
    | some v =>
      obtain ⟨u, found', resembles⟩ := X.included.values name v found
      have lift := resembles.lift
      cases lift with
      | function related =>
        rw [hs.resolve_function found]
        exact .ok related hs hr (.always fun _ => hr.resolve_function found' _)
      | _ => exact other (by simp [found]) (by simp [found'])
    | none =>
      -- The second session may have a function of this name. Then the first one fails.
      by_cases strict : X.strict
      · exact other (by simp [found]) (by simp [X.names strict name found])
      · cases m with
        | zero =>
          rw [hs.resolve_other named (by simp [found])]
          exact .deep _
        | succ m =>
          obtain ⟨f, s', run⟩ := hs.resolve_unknown named found m
          rw [run]
          exact .loose _ strict

/-- A word at the head of the first, and the value that it spells at the head of the second -/
theorem resolve_word_tracks {m : Nat} (word : v.IsWord) (tidy : v.IsTidy C)
    (general : X.Tracks (Function.Resembles C) (evalToFunction (eval m) (.atom v.key))
      fun depth => evalToFunction (eval depth) (.value v)) :
    X.Tracks (Function.Resembles C) (resolve (eval m) (.atom v.key))
      fun depth => resolve (eval depth) (.value v) := by
  intro s r hs hr
  rcases hs.resolve_word word (X.lookup_eq_none (not_isOpen_word word)).1 with ⟨p, rfl, run⟩ | run
  · rw [run]
    exact .ok (.refl tidy) hs hr (Run.Ends.always fun _ => rfl).succ
  · rw [run]
    exact general s r hs hr

/-- or the other way. -/
theorem resolve_spelled_tracks {m : Nat} (word : v.IsWord) (tidy : v.IsTidy C)
    (general : X.Tracks (Function.Resembles C) (evalToFunction (eval m) (.value v))
      fun depth => evalToFunction (eval depth) (.atom v.key)) :
    X.Tracks (Function.Resembles C) (resolve (eval m) (.value v))
      fun depth => resolve (eval depth) (.atom v.key) := by
  intro s r hs hr
  rcases hr.resolve_word word (X.lookup_eq_none (not_isOpen_word word)).2 with ⟨p, rfl, run⟩ | run
  · cases m with
    | zero => exact .deep _
    | succ m => exact .ok (.refl tidy) hs hr (.always fun _ => run _)
  · exact (general s r hs hr).congr 0 fun _ _ => run _

/-- Heads that resemble each other are resolved to functions that do. -/
theorem resolve_tracks {m : Nat} (h : t.Resembles C t')
    (evaluated : X.Tracks (Value.Resembles C) (eval m t) fun depth => eval depth t') :
    X.Tracks (Function.Resembles C) (resolve (eval m) t) fun depth => resolve (eval depth) t' := by
  have general := evalToFunction_tracks evaluated
  cases t with
  | atom name =>
    rcases h.atom_cases with rfl | ⟨v, rfl, word, rfl⟩
    · exact resolve_atom_tracks h.left general
    · exact resolve_word_tracks word (Term.IsTidy.value_iff.1 h.right) general
  | value u =>
    cases t' with
    | atom name =>
      rcases h.symm.atom_cases with same | ⟨v, same, word, rfl⟩
      · cases same
      · cases same
        exact resolve_spelled_tracks word (Term.IsTidy.value_iff.1 h.left) general
    | value _ => exact general
    | compound _ => exact general
  | compound parts =>
    cases t' with
    | atom name =>
      rcases h.symm.atom_cases with same | ⟨v, same, -⟩ <;> cases same
    | value _ => exact general
    | compound _ => exact general

/-- A primitive named at the head is resolved to itself. -/
theorem resolve_primitive_tracks {m : Nat}
    (head : t' = .atom p.name ∨ t' = .value (.function (.primitive p))) :
    X.Tracks (fun f g => f = .primitive p ∧ g = .primitive p) (resolve (eval m) (.atom p.name))
      fun depth => resolve (eval depth) t' := by
  intro s r hs hr
  obtain ⟨undefined, undefined'⟩ := X.lookup_eq_none (not_isOpen_primitive p)
  rw [hs.resolve_primitive undefined]
  rcases head with rfl | rfl
  · exact .ok ⟨rfl, rfl⟩ hs hr (.always fun _ => hr.resolve_primitive undefined' _)
  · exact .ok ⟨rfl, rfl⟩ hs hr (Run.Ends.always fun _ => rfl).succ

theorem checkArity_tracks {f g : Function Value} (same : f.arity = g.arity) (count : Nat) :
    X.Tracks (fun _ _ => f.arity.accepts count = true) (Run.ofExcept (f.checkArity count))
      fun _ => Run.ofExcept (g.checkArity count) := by
  unfold Function.checkArity
  rw [← same]
  by_cases accepted : f.arity.accepts count = true
  · rw [if_pos accepted, if_pos accepted]
    exact .ofExcept (.ok accepted)
  · rw [if_neg accepted, if_neg accepted]
    exact .ofExcept (.error rfl)

/-! ### Branches -/

theorem asBoolean_matches (operation operation' : String) (h : v.Resembles C u) :
    Matches (· = ·) (v.asBoolean operation) (u.asBoolean operation') := by
  have lift := h.lift
  cases lift <;> first | exact .ok rfl | exact .error rfl

theorem evalConditional_tracks {eval : Term Value → Run Value}
    {evalIn : Nat → Term Value → Run Value} {parts others : List (Term Value)}
    (evaluated : Forall₂ (fun t u => X.Tracks (Value.Resembles C) (eval t) (evalIn · u))
      parts others) :
    X.Tracks (Value.Resembles C) (evalConditional eval parts)
      fun depth => evalConditional (evalIn depth) others := by
  obtain _ | ⟨_, _ | ⟨condition, _ | ⟨yes, _ | ⟨no, _ | _⟩⟩⟩⟩ := evaluated
  · exact .fail rfl
  · exact .fail rfl
  · exact .fail rfl
  · exact .fail rfl
  · refine condition.bind fun v u h => ?_
    refine Tracks.bind (.ofExcept (asBoolean_matches _ _ h)) fun b b' hb => ?_
    subst hb
    cases b with
    | true => exact yes
    | false => exact no
  · exact .fail rfl

/-! ### Calls -/

/-- Functions that resemble each other are applied alike. -/
def Applies (X : Comparison C) (perform : Function Value → List Value → Run Value)
    (performIn : Nat → Function Value → List Value → Run Value) : Prop :=
  ∀ f g vs us, Function.Resembles C f g → Forall₂ (Value.Resembles C) vs us →
    X.Tracks (Value.Resembles C) (perform f vs) (performIn · g us)

section Calls
variable {perform : Function Value → List Value → Run Value}
  {performIn : Nat → Function Value → List Value → Run Value}

theorem asList_matches (operation : String) (h : v.Resembles C u) :
    Matches (Forall₂ (Value.Resembles C)) (v.asList operation) (u.asList operation) := by
  have lift := h.lift
  cases lift with
  | list _ => exact .ok (Value.Resembles.list_iff.1 h)
  | _ => exact .error rfl

theorem filterItems_tracks {f g : Function Value} {items others : List Value}
    (applied : ∀ vs us, Forall₂ (Value.Resembles C) vs us →
      X.Tracks (Value.Resembles C) (perform f vs) (performIn · g us))
    (h : Forall₂ (Value.Resembles C) items others) :
    X.Tracks (Forall₂ (Value.Resembles C)) (filterItems perform f items)
      fun depth => filterItems (performIn depth) g others := by
  induction h with
  | nil => exact .pure .nil
  | @cons item other items others first _ ih =>
    simp only [filterItems]
    refine (applied [item] [other] (.cons first .nil)).bind fun v u hv => ?_
    refine Tracks.bind (.ofExcept (asBoolean_matches _ _ hv)) fun b b' hb => ?_
    subst hb
    refine ih.bind fun kept kept' hk => .pure ?_
    cases b with
    | true => exact .cons first hk
    | false => exact hk

theorem callFilter_tracks (applied : X.Applies perform performIn)
    (h : Forall₂ (Value.Resembles C) vs us) :
    X.Tracks (Value.Resembles C) (Primitive.callFilter perform vs)
      fun depth => Primitive.callFilter (performIn depth) us := by
  obtain _ | ⟨ha, _ | ⟨hb, _ | ⟨hc, rest⟩⟩⟩ := h
  · exact .fail rfl
  · exact .fail rfl
  · refine (Tracks.ofExcept (ha.lift.asFunction _)).bind fun f g hf => ?_
    refine (Tracks.ofExcept (asList_matches _ hb)).bind fun items others hi => ?_
    refine (filterItems_tracks (applied f g · · hf) hi).bind fun kept kept' hk => .pure ?_
    exact Value.Resembles.list_iff.2 hk
  · exact .fail rfl

theorem mapM_tracks {α β : Type} {f : α → Run Value} {g : Nat → β → Run Value} {as : List α}
    {bs : List β}
    (each : Forall₂ (fun a b => X.Tracks (Value.Resembles C) (f a) (g · b)) as bs) :
    X.Tracks (fun vs us => (Value.list vs).Resembles C (.list us)) (as.mapM f)
      fun depth => bs.mapM (g depth) := by
  have each' := each.imp fun a b (h : X.Tracks (Value.Resembles C) (f a) (g · b)) =>
    show X.Tracks (fun v u => v.Resembles C u ∧ True) (f a) (g · b) from
      h.mono fun _ _ related => ⟨related, trivial⟩
  exact (Tracks.mapM (Q := fun _ _ => True) each').mono fun _ _ h => Value.Resembles.list_iff.2 h.1

theorem callMap_tracks (applied : X.Applies perform performIn)
    (h : Forall₂ (Value.Resembles C) vs us) :
    X.Tracks (Value.Resembles C) (Primitive.callMap perform vs)
      fun depth => Primitive.callMap (performIn depth) us := by
  obtain _ | ⟨ha, _ | ⟨hb, _ | ⟨hc, _ | ⟨hd, rest⟩⟩⟩⟩ := h
  · exact .fail rfl
  · exact .fail rfl
  · refine (Tracks.ofExcept (ha.lift.asFunction _)).bind fun f g hf => ?_
    refine (Tracks.ofExcept (asList_matches _ hb)).bind fun items others hi => ?_
    refine Tracks.bind (mapM_tracks (hi.imp fun v u related => ?_)) fun _ _ hm => .pure hm
    exact applied f g [v] [u] hf (.cons related .nil)
  · refine (Tracks.ofExcept (ha.lift.asFunction _)).bind fun f g hf => ?_
    refine (Tracks.ofExcept (asList_matches _ hb)).bind fun xs xs' hx => ?_
    refine (Tracks.ofExcept (asList_matches _ hc)).bind fun ys ys' hy => ?_
    refine Tracks.bind (mapM_tracks ((forall₂_zip hx hy).imp fun a b related => ?_))
      fun _ _ hm => .pure hm
    exact applied f g [a.1, a.2] [b.1, b.2] hf (.cons related.1 (.cons related.2 .nil))
  · exact .fail rfl

theorem answer_tracks (other : p ≠ .equal) (hs : X.First s) (hr : X.Second r)
    (h : Forall₂ (Value.Resembles C) vs us) :
    Matches (Value.Resembles C) (p.answer s.tree.1 s.dictionary s.today vs)
      (p.answer r.tree.1 r.dictionary r.today us) := by
  obtain ⟨left, right⟩ := Value.Resembles.tidy_items h
  have matching := p.answer_matches (fun same => absurd same other) C.world.tree C.world.dictionary
    C.world.today (h.imp fun _ _ => Value.Resembles.lift)
  rw [hs.tree, hr.tree, hs.dictionary, hr.dictionary, hs.today, hr.today]
  refine matching.strengthen fun v u first second lifted => ?_
  exact ⟨.answer other left first, .answer other right second, lifted.expand⟩

/-- Primitives that look into no function have answers that resemble each other. -/
theorem reads_tracks (reads : p.Reads) (other : p ≠ .equal)
    (h : Forall₂ (Value.Resembles C) vs us) :
    X.Tracks (Value.Resembles C) (p.call perform vs) fun depth => p.call (performIn depth) us := by
  refine .of_answers fun s r hs hr => ?_
  obtain ⟨s', same, first⟩ := Primitive.run_call reads perform vs s
  obtain ⟨r', same', second⟩ := Primitive.run_call reads (performIn 0) us r
  refine ⟨_, _, s', r', .inl (answer_tracks other hs hr h), same, same', first, fun depth => ?_⟩
  rw [reads.call_eq (performIn depth) (performIn 0), second]

theorem call_tracks (other : p ≠ .equal) (pure : p ≠ .putKinshipTerm)
    (applied : X.Applies perform performIn) (h : Forall₂ (Value.Resembles C) vs us) :
    X.Tracks (Value.Resembles C) (p.call perform vs) fun depth => p.call (performIn depth) us := by
  by_cases hf : p = .filter
  · subst hf
    exact callFilter_tracks applied h
  · by_cases hm : p = .map
    · subst hm
      exact callMap_tracks applied h
    · exact reads_tracks ⟨hf, hm, pure⟩ other h

end Calls
end Comparison
end KinQuery
