import KinQuery.Proofs.Helper.Result

/-! The helpers that count and that tell parity, for every numeral.

Each numeral that is counted takes four levels of evaluation: the application of `first-n`, the
branch of its body, the application of `append` and its first argument. -/
namespace KinQuery

open List (Forall₂)
open Helper (Result isOdd numerals evenValue oddValue firstValue evenBody firstBody)
open Numeral (countTo)
open Run (Comes)

variable {before n : Nat} {a b : Numeral} {t u : Term Value} {v w : Value} {p : Primitive}
  {arguments : List (Term Value)} {values : List Value}

namespace Helper

/-- Terms that hold or spell a numeral. -/
inductive IsNumeral : Term Value → Numeral → Prop
  | value (a : Numeral) : IsNumeral (.value (.numeral a)) a
  | literal (a : Numeral) : IsNumeral a.literal a

namespace IsNumeral

theorem expand (h : IsNumeral t a) : t.expand = a.literal := by
  cases h <;> rfl

theorem comes (h : IsNumeral t a) (before n : Nat) :
    Comes before (eval (n + 1) t) (.numeral a) := by
  cases h with
  | value => exact .pure before _
  | literal =>
    have word : (Value.numeral a).IsWord := trivial
    exact .word word before n

end IsNumeral

/-! ### Applications -/

section Applications
variable {head : Term Value} {f : Function Value} {arguments : List (Term Value)}
  {values : List Value}

/-- The head stands for a function, which has this value for the values of the arguments. -/
theorem comes_applied (result : Result ((head :: arguments).map Term.expand) v)
    (special : (Term.compound (head :: arguments)).specialForm? = none)
    (stands : ∀ s : Session, s.RunsHelpers before → s.StandsFor head f)
    (each : Forall₂ (fun t v => Comes before (eval (n + 1) t) v) arguments values)
    (accepts : f.arity.accepts arguments.length = true)
    (called : Comes before (apply (n + 1) f values) v) :
    Comes before (eval (n + 2) (.compound (head :: arguments))) v := by
  refine .application special result fun s runs => ?_
  have arity : f.checkArity arguments.length = .ok () := if_pos accepts
  obtain ⟨t, runs', ran⟩ := ((Comes.mapM each).bind called) s runs
  refine ⟨t, runs', ?_⟩
  rw [applyTo, Run.run_bind_ok ((stands s runs).head n), arity]
  exact ran

/-- A primitive whose value depends on its arguments alone. -/
theorem comes_primitive (result : Result (.atom p.name :: arguments.map Term.expand) v)
    (each : Forall₂ (fun t v => Comes before (eval (n + 1) t) v) arguments values)
    (accepts : p.arity.accepts values.length = true)
    (called : ∀ apply, p.call apply values = Run.ofExcept (p.compute values))
    (computed : p.compute values = .ok v) :
    Comes before (eval (n + 2) (.compound (.atom p.name :: arguments))) v := by
  have accepted : p.arity.accepts arguments.length = true := each.length_eq ▸ accepts
  refine comes_applied (f := .primitive p) (by simpa [Term.expand] using result)
    (Session.specialForm?_eq_none (Session.isKeyword_primitive p) _)
    (fun s runs => (runs.names_primitive p).written) each accepted fun s runs => ⟨s, runs, ?_⟩
  rw [Primitive.run_apply_computed accepts called, computed]
  rfl

/-- A lambda with one parameter, applied to a value. -/
theorem comes_lambda (serial : Nat) {body : Term Value}
    (inside : Comes before
      (eval n (body.substitute (Bindings.ofList [("n", .numeral a)]))) v) :
    Comes before (apply (n + 1) (.lambda serial ["n"] body) [.numeral a]) v :=
  inside

/-- A helper that is put in place, applied to a numeral. -/
theorem comes_helper {serial : Nat} {body : Term Value} (h : IsNumeral t a)
    (result : Result [(Value.function (.lambda serial ["n"] body)).expand, a.literal] v)
    (called : Comes before (apply (n + 1) (.lambda serial ["n"] body) [.numeral a]) v) :
    Comes before (eval (n + 2) (.compound [.value (.function (.lambda serial ["n"] body)), t])) v :=
  comes_applied (by simpa [Term.expand, h.expand] using result) rfl
    (fun s _ => s.standsFor_value _) (.cons (h.comes before n) .nil) rfl called

end Applications

/-! ### Parity -/

theorem exists_remainder (a : Numeral) : ∃ r : Numeral, r.val = a.val.tmod 2 ∧
    Primitive.remainder.compute [.numeral a, .numeral .two] = .ok (.numeral r) := by
  refine (Numerals.remainder_exact a .two).answered ⟨by decide, ?_, by simp [Numeral.two]⟩
  have small := Int.natAbs_tmod a.val Numeral.two.val
  rw [show Numeral.two.val.natAbs = 2 from rfl] at small
  rw [Numeral.Fits]
  omega

theorem zero_iff_even {r : Numeral} (remainder : r.val = a.val.tmod 2) :
    (decide (r = .zero)) = !isOdd a := by
  have zero : r = .zero ↔ r.val = 0 := by
    cases r
    simp [Numeral.zero]
  rw [isOdd, ← decide_not, decide_eq_decide, zero, remainder, Int.not_odd_iff_even,
    even_iff_two_dvd, Int.dvd_iff_tmod_eq_zero]

/-- `(= (mod n 2) 0)` -/
theorem comes_equal (a : Numeral) (before n : Nat) :
    Comes before (eval (n + 3) (evenBody.substitute (Bindings.ofList [("n", .numeral a)])))
      (.boolean !isOdd a) := by
  obtain ⟨r, val, computed⟩ := exists_remainder a
  have numeral := IsNumeral.value a
  have two := IsNumeral.literal .two
  have zero := IsNumeral.literal .zero
  have inside : Comes before (eval (n + 2) (.compound [.atom Primitive.remainder.name,
      .value (.numeral a), Numeral.two.literal])) (.numeral r) :=
    comes_primitive (.primitive computed) (.cons (numeral.comes _ _) (.cons (two.comes _ _) .nil))
      rfl (fun _ => rfl) computed
  refine comes_primitive (p := .equal) (.equal a) (.cons inside (.cons (zero.comes _ _) .nil)) rfl
    (fun _ => rfl) ?_
  rw [← zero_iff_even val]
  rfl

theorem applies_even (a : Numeral) (before n serial : Nat) :
    Comes before (apply (n + 4) (.lambda serial ["n"] evenBody) [.numeral a]) (.boolean !isOdd a) :=
  comes_lambda serial (comes_equal a before n)

theorem comes_even (h : IsNumeral t a) (before n : Nat) :
    Comes before (eval (n + 5) (.compound [.value (evenValue before), t])) (.boolean !isOdd a) :=
  comes_helper h (.even a) (applies_even a before n _)

/-- `(not (even? n))` -/
theorem comes_not (a : Numeral) (before n : Nat) :
    Comes before (eval (n + 6)
      (.compound [.atom "not", .compound [.value (evenValue before), .value (.numeral a)]]))
      (.boolean (isOdd a)) := by
  have inside := comes_even (.value a) before n
  refine comes_primitive (p := .not) (.not a) (.cons inside .nil) rfl (fun _ => rfl) ?_
  change Except.ok (Value.boolean !!isOdd a) = _
  rw [Bool.not_not]

theorem applies_odd (a : Numeral) (before n : Nat) :
    Comes before (apply (n + 7) (.lambda (before + 6) ["n"]
      (.compound [.atom "not", .compound [.value (evenValue before), .atom "n"]])) [.numeral a])
      (.boolean (isOdd a)) :=
  comes_lambda _ (comes_not a before n)

theorem comes_odd (h : IsNumeral t a) (before n : Nat) :
    Comes before (eval (n + 8) (.compound [.value (oddValue before), t])) (.boolean (isOdd a)) :=
  comes_helper h (.odd a) (applies_odd a before n)

/-! ### Counting -/

theorem comes_conditional {condition yes no : Term Value} {b : Bool}
    (decided : Comes before (eval n condition) (.boolean b))
    (branch : Comes before (eval n (if b then yes else no)) v) :
    Comes before (eval (n + 1)
      (.compound [.atom SpecialForm.conditional.word, condition, yes, no])) v :=
  decided.bind branch

/-- `(append (first-n (- n 1)) n)`, for a value of `n` -/
def appended (a : Numeral) : Term Value :=
  .compound [.atom "append", .compound [.atom "first-n", .compound [.atom "-",
    .value (.numeral a), .atom "1"]], .value (.numeral a)]

/-- Only where the numeral is not negative is the second branch of the body evaluated. -/
theorem comes_firstBody_of (branch : 0 ≤ a.val →
      Comes before (eval (n + 2) (appended a)) (numerals (countTo a.val))) :
    Comes before (eval (n + 3) (firstBody.substitute (Bindings.ofList [("n", .numeral a)])))
      (numerals (countTo a.val)) := by
  have compared : Primitive.less.compute [.numeral a, .numeral .zero] =
      .ok (.boolean (decide (a.val < 0))) := rfl
  have numeral := IsNumeral.value a
  have zero := IsNumeral.literal .zero
  have condition : Comes before (eval (n + 2) (.compound [.atom Primitive.less.name,
      .value (.numeral a), Numeral.zero.literal])) (.boolean (decide (a.val < 0))) :=
    comes_primitive (.primitive compared) (.cons (numeral.comes _ _) (.cons (zero.comes _ _) .nil))
      rfl (fun _ => rfl) compared
  refine comes_conditional condition ?_
  by_cases negative : a.val < 0
  · have vacant : (Value.list []).IsWord := rfl
    rw [if_pos (decide_eq_true negative), Numeral.countTo_of_neg negative]
    exact .word vacant before _
  · rw [if_neg (by simpa using negative)]
    exact branch (by omega)

/-- The body of `first-n`, for all numerals below a bound: inside it `first-n` is applied to the
numeral before, four levels deeper. -/
theorem comes_firstBody (bound : Nat) : ∀ a : Numeral, a.val < bound → ∀ before n,
    Comes before (eval (n + 4 * bound + 3) (firstBody.substitute
      (Bindings.ofList [("n", .numeral a)]))) (numerals (countTo a.val)) := by
  induction bound with
  | zero => exact fun a below before n => comes_firstBody_of fun nonneg => by omega
  | succ bound ih =>
    intro a below before n
    refine comes_firstBody_of fun nonneg => ?_
    have upper := a.upper
    obtain ⟨b, val, less⟩ := (Numerals.inRange_exact Primitive.subtract.name (a.val - 1)).answered
      ⟨by omega, by omega⟩
    have numeral := IsNumeral.value a
    have one := IsNumeral.literal .one
    have difference : Comes before (eval (n + 4 * bound + 4)
        (.compound [.atom Primitive.subtract.name, .value (.numeral a), Numeral.one.literal]))
        (.numeral b) :=
      comes_primitive (.primitive less) (.cons (numeral.comes _ _) (.cons (one.comes _ _) .nil))
        rfl (fun _ => rfl) less
    have counted : Comes before (eval (n + 4 * bound + 5) (.compound [.atom "first-n",
        .compound [.atom "-", .value (.numeral a), .atom "1"]])) (numerals (countTo b.val)) :=
      comes_applied (val ▸ .before nonneg) rfl
        (fun s runs => (runs.names_definition runs.first).written) (.cons difference .nil) rfl
        (comes_lambda _ (ih b (by omega) before n))
    refine comes_primitive (p := .append) (.append nonneg)
      (.cons counted (.cons (numeral.comes _ _) .nil)) rfl (fun _ => rfl) ?_
    rw [Numeral.countTo_append a nonneg, ← val]
    change Except.ok (Value.list ((countTo b.val).map .numeral ++ [.numeral a])) = _
    rw [numerals, List.map_append]
    rfl

theorem comes_first (h : IsNumeral t a) {bound : Nat} (below : a.val < bound) (before n : Nat) :
    Comes before (eval (n + 4 * bound + 5) (.compound [.value (firstValue before), t]))
      (numerals (countTo a.val)) :=
  comes_helper h (.first a) (comes_lambda _ (comes_firstBody bound a below before n))

/-! ### Filtering -/

theorem comes_filterItems {f : Function Value} {m : Nat} (test : Numeral → Bool)
    (applied : ∀ a, Comes before (apply m f [.numeral a]) (.boolean (test a))) (ns : List Numeral) :
    Comes before (filterItems (apply m) f (ns.map .numeral)) ((ns.filter test).map .numeral) := by
  induction ns with
  | nil => exact .pure before []
  | cons a ns ih =>
    refine (applied a).bind ((Comes.pure before (test a)).bind (ih.bind ?_))
    rw [List.filter_cons]
    cases test a <;> exact .pure before _

theorem comes_filter (h : IsNumeral t a) {bound : Nat} (below : a.val < bound) (before n : Nat) :
    Comes before (eval (n + 4 * bound + 9) (.compound [.atom "filter", .value (oddValue before),
      .compound [.value (firstValue before), t]])) (numerals ((countTo a.val).filter isOdd)) := by
  have odd : Comes before (eval (n + 4 * bound + 8) (.value (oddValue before))) (oddValue before) :=
    .pure before _
  have counted := comes_first h below before (n + 3)
  rw [show n + 3 + 4 * bound + 5 = n + 4 * bound + 8 by omega] at counted
  have filtered := comes_filterItems isOdd (applies_odd · before (n + 4 * bound)) (countTo a.val)
  have result : Result ([.atom "filter", .value (oddValue before),
      .compound [.value (firstValue before), t]].map Term.expand)
      (numerals ((countTo a.val).filter isOdd)) := by
    simpa [Term.expand, Term.expandParts, h.expand, expand_oddValue, expand_firstValue] using
      Result.filter a
  exact comes_applied (f := .primitive .filter) result rfl
    (fun s runs => (runs.names_primitive .filter).written) (.cons odd (.cons counted .nil)) rfl
    (filtered.bind (.pure before _))

end Helper

end KinQuery
