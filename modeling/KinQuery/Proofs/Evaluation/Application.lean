import KinQuery.Proofs.Function.Plain

/-! What functions answer when there are no lambdas.

A primitive that calls the function it is given gives it fewer arguments than it has itself,
so such calls are nested three times at most. From that depth on the answer depends on the
arguments and on what primitives see of the session, and on nothing else. -/
namespace KinQuery

namespace Session.SameButTree
variable {s t u : Session}

theorem world (h : s.SameButTree t) : t.world = s.world := by
  rcases h with rfl | rfl
  · rfl
  · rw [Session.world, Session.world, tree_fst_eq, tree_fst_eq, tree_snd_eq]
    dsimp only
    rw [s.genealogy.tree_tree]

theorem trans (first : s.SameButTree t) (second : t.SameButTree u) : s.SameButTree u := by
  rcases first with rfl | rfl
  · exact second
  · rcases second with rfl | rfl
    · exact .inr rfl
    · right
      rw [tree_snd_eq, tree_snd_eq]
      dsimp only
      rw [s.genealogy.tree_tree]

end Session.SameButTree

namespace Run
variable {α β : Type} {w : World} {P : α → Prop} {Q : β → Prop}

/-- In every session of a world the computation has this result, and changes nothing but that
the family tree may be remembered. -/
def Settles (w : World) (m : Run α) (r : Except Failure α) : Prop :=
  ∀ s : Session, s.world = w → ∃ t, s.SameButTree t ∧ m.run s = (r.mapError .failed, t)

/-- The computations settle, all of them in the same way. -/
def Steady (w : World) (P : α → Prop) (m : Nat → Run α) : Prop :=
  ∃ r, Gives P r ∧ ∀ depth, Settles w (m depth) r

theorem Settles.ofExcept (r : Except Failure α) : Settles w (ofExcept r) r :=
  fun s _ => ⟨s, .inl rfl, run_ofExcept r s⟩

theorem Settles.bind {m : Run α} {r : Except Failure α} {f : α → Run β}
    {g : α → Except Failure β} (first : Settles w m r)
    (next : ∀ a, r = .ok a → Settles w (f a) (g a)) : Settles w (m >>= f) (r >>= g) := by
  intro s hs
  obtain ⟨t, same, hm⟩ := first s hs
  cases r with
  | error failure =>
    exact ⟨t, same, run_bind_error hm⟩
  | ok a =>
    obtain ⟨u, same', hf⟩ := next a rfl t (same.world.trans hs)
    exact ⟨u, same.trans same', (run_bind_ok hm).trans hf⟩

namespace Steady

theorem ofExcept {r : Except Failure α} (good : Gives P r) :
    Steady w P (fun _ => Run.ofExcept r) :=
  ⟨r, good, fun _ => .ofExcept r⟩

theorem pure {a : α} (ha : P a) : Steady w P (fun _ => Pure.pure a) :=
  ofExcept (.ok ha)

theorem bind {m : Nat → Run α} {f : Nat → α → Run β} (first : Steady w P m)
    (next : ∀ a, P a → Steady w Q (f · a)) : Steady w Q (fun depth => m depth >>= f depth) := by
  obtain ⟨r, good, settles⟩ := first
  cases r with
  | error failure =>
    refine ⟨.error failure, .error failure, fun depth => ?_⟩
    exact (settles depth).bind (g := fun _ => .error failure) fun a ha => by cases ha
  | ok a =>
    obtain ⟨q, good', settles'⟩ := next a (good a rfl)
    refine ⟨q, good', fun depth => ?_⟩
    refine (settles depth).bind (g := fun _ => q) fun b hb => ?_
    cases hb
    exact settles' depth

theorem mapM {f : Nat → α → Run β} :
    ∀ {as : List α}, (∀ a ∈ as, Steady w Q (f · a)) →
      Steady w (fun bs => ∀ b ∈ bs, Q b) (fun depth => as.mapM (f depth))
  | [], _ => by
    simp only [List.mapM_nil]
    exact pure (by simp)
  | a :: as, each => by
    obtain ⟨first, rest⟩ := List.forall_mem_cons.1 each
    simp only [List.mapM_cons]
    refine first.bind fun b hb => ?_
    refine (mapM rest).bind fun bs hbs => ?_
    exact pure (List.forall_mem_cons.2 ⟨hb, hbs⟩)

end Steady
end Run

open Run (Steady)

variable {w : World} {p : Primitive} {f : Function Value} {arguments : List Value}
  {perform : Nat → Function Value → List Value → Run Value}

/-- A function that is a plain value. -/
abbrev Function.IsPlainIn (w : World) (f : Function Value) : Prop :=
  (Value.function f).IsPlainIn w

theorem Value.IsPlainIn.asFunction {v : Value} (operation : String) (h : v.IsPlainIn w) :
    Gives (Function.IsPlainIn w) (v.asFunction operation) := by
  cases v with
  | function f => exact .ok h
  | _ => exact .error _

/-! ### Calls -/

namespace Primitive

theorem steady_call (hw : w.IsPlain) (reads : p.Reads) (good : ∀ v ∈ arguments, v.IsPlainIn w) :
    Steady w (Value.IsPlainIn w) (fun depth => p.call (perform depth) arguments) := by
  refine ⟨p.answer w.tree w.dictionary w.today arguments, answer_plain hw p good, fun depth s hs => ?_⟩
  subst hs
  exact run_call reads (perform depth) arguments s

theorem steady_filterItems : ∀ {items : List Value},
    (∀ item ∈ items, item.IsPlainIn w ∧
      Steady w (Value.IsPlainIn w) (perform · f [item])) →
    Steady w (fun kept => ∀ item ∈ kept, item.IsPlainIn w)
      (fun depth => filterItems (perform depth) f items)
  | [], _ => Steady.pure (by simp)
  | item :: items, each => by
    obtain ⟨⟨plain, first⟩, rest⟩ := List.forall_mem_cons.1 each
    refine first.bind fun verdict _ => ?_
    refine (Steady.ofExcept (.trivial _)).bind fun keep _ => ?_
    refine (steady_filterItems rest).bind fun kept hkept => Steady.pure ?_
    cases keep with
    | true => exact List.forall_mem_cons.2 ⟨plain, hkept⟩
    | false => exact hkept

/-- The calls of a function that is given one argument less than there are. -/
theorem steady_callFilter (good : ∀ v ∈ arguments, v.IsPlainIn w)
    (fewer : ∀ f others, Function.IsPlainIn w f → (∀ v ∈ others, v.IsPlainIn w) →
      others.length + 1 = arguments.length →
        Steady w (Value.IsPlainIn w) (perform · f others)) :
    Steady w (Value.IsPlainIn w) (fun depth => callFilter (perform depth) arguments) := by
  unfold callFilter
  split
  · rename_i a b
    obtain ⟨ha, hb⟩ : a.IsPlainIn w ∧ b.IsPlainIn w := by simpa using good
    refine (Steady.ofExcept (ha.asFunction _)).bind fun f hf => ?_
    refine (Steady.ofExcept (hb.asList _)).bind fun items hi => ?_
    have each (item : Value) (hitem : item ∈ items) :=
      And.intro (hi item hitem) (fewer f [item] hf (by simpa using hi item hitem) rfl)
    exact (steady_filterItems each).bind fun kept hk => Steady.pure (Value.obeys_list.2 hk)
  · exact Steady.ofExcept (.error _)

/-- Applying a plain function to one list of arguments after the other. -/
theorem steady_mapArguments {ι : Type} {items : List ι} (pass : ι → List Value)
    (each : ∀ item ∈ items, Steady w (Value.IsPlainIn w) (perform · f (pass item))) :
    Steady w (Value.IsPlainIn w) (fun depth => do
      return .list (← items.mapM fun item => perform depth f (pass item))) :=
  (Steady.mapM each).bind fun _ plain => Steady.pure (Value.obeys_list.2 plain)

theorem steady_callMap (good : ∀ v ∈ arguments, v.IsPlainIn w)
    (fewer : ∀ f others, Function.IsPlainIn w f → (∀ v ∈ others, v.IsPlainIn w) →
      others.length + 1 = arguments.length →
        Steady w (Value.IsPlainIn w) (perform · f others)) :
    Steady w (Value.IsPlainIn w) (fun depth => callMap (perform depth) arguments) := by
  unfold callMap
  split
  · rename_i a b
    obtain ⟨ha, hb⟩ : a.IsPlainIn w ∧ b.IsPlainIn w := by simpa using good
    refine (Steady.ofExcept (ha.asFunction _)).bind fun f hf => ?_
    refine (Steady.ofExcept (hb.asList _)).bind fun items hi => ?_
    refine steady_mapArguments (fun item => [item]) fun item hitem => ?_
    exact fewer f [item] hf (by simpa using hi item hitem) rfl
  · rename_i a b c
    obtain ⟨ha, hb, hc⟩ : a.IsPlainIn w ∧ b.IsPlainIn w ∧ c.IsPlainIn w := by simpa using good
    refine (Steady.ofExcept (ha.asFunction _)).bind fun f hf => ?_
    refine (Steady.ofExcept (hb.asList _)).bind fun items hi => ?_
    refine (Steady.ofExcept (hc.asList _)).bind fun others ho => ?_
    refine steady_mapArguments (fun pair : Value × Value => [pair.1, pair.2]) fun pair hpair => ?_
    have hx := hi pair.1 (List.of_mem_zip hpair).1
    have hy := ho pair.2 (List.of_mem_zip hpair).2
    exact fewer f [pair.1, pair.2] hf (by simpa using And.intro hx hy) rfl
  · exact Steady.ofExcept (.error _)

end Primitive

/-! ### Applications -/

/-- A function that takes one argument, or more than three, calls no other. -/
theorem Primitive.reads_of_accepts {n : Nat} (accepted : p.arity.accepts n = true)
    (apart : n ≤ 1 ∨ 3 < n) (other : p ≠ .putKinshipTerm) : p.Reads := by
  refine ⟨?_, ?_, other⟩
  · rintro rfl
    simp only [Primitive.arity, Arity.accepts, decide_eq_true_eq] at accepted
    omega
  · rintro rfl
    simp only [Primitive.arity, Arity.accepts, Bool.and_eq_true, decide_eq_true_eq] at accepted
    omega

/-- The number of arguments is checked before the call. -/
theorem steady_apply_of_call {n : Nat}
    (called : p.arity.accepts arguments.length = true →
      Steady w (Value.IsPlainIn w) (fun depth => p.call (apply (depth + n)) arguments)) :
    Steady w (Value.IsPlainIn w) (fun depth => apply (depth + (n + 1)) (.primitive p) arguments) := by
  change Steady w _ fun depth => (do
    Run.ofExcept ((Function.primitive p).checkArity arguments.length)
    p.call (apply (depth + n)) arguments)
  by_cases accepted : p.arity.accepts arguments.length = true
  · exact (Steady.ofExcept (.trivial _)).bind fun _ _ => called accepted
  · rw [Function.checkArity, Function.arity, if_neg accepted]
    exact (Steady.ofExcept (P := fun _ => False) (.error _)).bind fun _ h => h.elim

/-- A function whose calls nest as deep as it has arguments. -/
theorem steady_apply_of_length (hw : w.IsPlain) (n : Nat) :
    ∀ (f : Function Value) (arguments : List Value), Function.IsPlainIn w f →
      (∀ v ∈ arguments, v.IsPlainIn w) → arguments.length ≤ n + 1 →
        Steady w (Value.IsPlainIn w) (fun depth => apply (depth + (n + 1)) f arguments) := by
  induction n with
  | zero =>
    intro f arguments hf good short
    obtain ⟨p, rfl, other⟩ := Value.isSpelled_function.1 hf
    refine steady_apply_of_call fun accepted => ?_
    exact Primitive.steady_call hw (Primitive.reads_of_accepts accepted (.inl short) other) good
  | succ n ih =>
    intro f arguments hf good short
    obtain ⟨p, rfl, other⟩ := Value.isSpelled_function.1 hf
    refine steady_apply_of_call fun _ => ?_
    have fewer (f : Function Value) (others : List Value) (hf : Function.IsPlainIn w f)
        (hothers : ∀ v ∈ others, v.IsPlainIn w) (one : others.length + 1 = arguments.length) :=
      ih f others hf hothers (by omega)
    by_cases hfilter : p = .filter
    · subst hfilter
      exact Primitive.steady_callFilter good fewer
    · by_cases hmap : p = .map
      · subst hmap
        exact Primitive.steady_callMap good fewer
      · exact Primitive.steady_call hw ⟨hfilter, hmap, other⟩ good

/-- Three levels are enough for every function. -/
theorem steady_apply (hw : w.IsPlain) (hf : Function.IsPlainIn w f)
    (good : ∀ v ∈ arguments, v.IsPlainIn w) :
    Steady w (Value.IsPlainIn w) (fun depth => apply (depth + 3) f arguments) := by
  by_cases short : arguments.length ≤ 3
  · exact steady_apply_of_length hw 2 f arguments hf good short
  · obtain ⟨p, rfl, other⟩ := Value.isSpelled_function.1 hf
    refine steady_apply_of_call fun accepted => ?_
    have reads := Primitive.reads_of_accepts accepted (.inr (not_le.1 short)) other
    exact Primitive.steady_call hw reads good

end KinQuery
