import Mathlib.Algebra.Ring.Int.Defs
import KinQuery.Proofs.Function.Answer

/-! Arithmetic on numerals is exact, or refused.

A sum or product of a list is computed from the left, and every result on the way has to be a
numeral; it can be refused although the whole sum would be one. A difference and a quotient are
refused only where they are no numerals, and a remainder together with its quotient. -/
namespace KinQuery

/-! ### The range of numerals -/

namespace Numeral
variable {n : Int} {a b : Numeral}

/-- The integers that are numerals. -/
def Fits (n : Int) : Prop :=
  -9223372036854775808 ≤ n ∧ n < 9223372036854775808

theorem fits_val (m : Numeral) : Fits m.val :=
  ⟨m.lower, m.upper⟩

theorem exists_ofInt? (h : Fits n) : ∃ m : Numeral, m.val = n ∧ ofInt? n = some m :=
  ⟨⟨n, h.1, h.2⟩, rfl, ofInt?_eq_some_iff.2 rfl⟩

theorem ofInt?_of_not_fits (h : ¬Fits n) : ofInt? n = none :=
  dif_neg h

/-- Of all quotients only that of the least numeral by minus one is too large. -/
theorem fits_tdiv_iff (nonzero : b.val ≠ 0) :
    Fits (a.val.tdiv b.val) ↔ ¬(a.val = -9223372036854775808 ∧ b.val = -1) := by
  obtain ⟨lower, upper⟩ := a.fits_val
  constructor
  · rintro fits ⟨least, minusOne⟩
    rw [least, minusOne] at fits
    exact absurd fits.2 (by decide)
  · intro other
    by_cases minusOne : b.val = -1
    · rw [minusOne, Int.tdiv_neg, Int.tdiv_one, Fits]
      omega
    · -- The quotient is no further from zero than the dividend, and by one it is the dividend.
      have smaller := Int.natAbs_tdiv_le_natAbs a.val b.val
      by_cases least : a.val = -9223372036854775808
      · by_cases one : b.val = 1
        · rw [one, Int.tdiv_one]
          exact a.fits_val
        · have half : (a.val.tdiv b.val).natAbs ≤ a.val.natAbs / 2 := by
            rw [Int.natAbs_tdiv]
            exact Nat.div_le_div_left (by omega) (by decide)
          rw [Fits]
          omega
      · rw [Fits]
        omega

end Numeral

/-! ### Exact results -/

namespace Numerals
open Numeral (Fits)

variable {n : Int} {allowed other : Prop} {result : Except Failure Value}

/-- The result is a given integer where that is allowed, and elsewhere a domain failure. -/
structure Exact (result : Except Failure Value) (n : Int) (allowed : Prop) : Prop where
  answered : allowed → ∃ m : Numeral, m.val = n ∧ result = .ok (.numeral m)
  refused : ¬allowed → ∃ failure : Failure,
    failure.failureClass = .domain ∧ result = .error failure

theorem Exact.congr (h : Exact result n allowed) (same : allowed ↔ other) :
    Exact result n other :=
  ⟨fun holds => h.answered (same.2 holds), fun fails => h.refused (mt same.1 fails)⟩

theorem exact_numeral (m : Numeral) (holds : allowed) : Exact (.ok (.numeral m)) m.val allowed :=
  ⟨fun _ => ⟨m, rfl, rfl⟩, fun fails => absurd holds fails⟩

theorem exact_error {failure : Failure} (domain : failure.failureClass = .domain)
    (fails : ¬allowed) : Exact (.error failure) n allowed :=
  ⟨fun holds => absurd holds fails, fun _ => ⟨failure, domain, rfl⟩⟩

theorem inRange_exact (operation : String) (n : Int) :
    Exact (inRange operation (Numeral.ofInt? n)) n (Fits n) := by
  by_cases fits : Fits n
  · obtain ⟨m, rfl, found⟩ := Numeral.exists_ofInt? fits
    rw [found]
    exact exact_numeral m fits
  · rw [Numeral.ofInt?_of_not_fits fits]
    exact exact_error rfl fits

/-! ### From left to right -/

/-- The result after the first `k` of some numerals. -/
def partialResult (f : Int → Int → Int) (total : Int) (ns : List Numeral) (k : Nat) : Int :=
  ((ns.take k).map Numeral.val).foldl f total

variable {f : Int → Int → Int}

theorem forall_partialResult_cons {P : Int → Prop} {total : Int} {m : Numeral}
    {ns : List Numeral} : (∀ k, P (partialResult f total (m :: ns) k)) ↔
      P total ∧ ∀ k, P (partialResult f (f total m.val) ns k) :=
  ⟨fun each => ⟨each 0, fun k => each (k + 1)⟩, fun ⟨first, later⟩ k =>
    match k with
    | 0 => first
    | k + 1 => later k⟩

theorem fold_exact {step : Numeral → Numeral → Option Numeral}
    (computes : ∀ a b, step a b = Numeral.ofInt? (f a.val b.val)) (operation : String)
    (total : Numeral) (ns : List Numeral) :
    Exact (fold operation step total (ns.map .numeral)) (partialResult f total.val ns ns.length)
      (∀ k, Fits (partialResult f total.val ns k)) := by
  induction ns generalizing total with
  | nil =>
    refine exact_numeral total fun k => ?_
    rw [partialResult, List.take_nil]
    exact total.fits_val
  | cons m ns ih =>
    have added : (Value.numeral m).asNumeral operation = pure m := rfl
    rw [List.map_cons, fold, added, pure_bind, computes]
    by_cases fits : Fits (f total.val m.val)
    · obtain ⟨total', val, found⟩ := Numeral.exists_ofInt? fits
      rw [found]
      refine (val ▸ ih total').congr ?_
      rw [forall_partialResult_cons, and_iff_right total.fits_val]
    · rw [Numeral.ofInt?_of_not_fits fits]
      refine exact_error rfl fun each => fits ?_
      exact (forall_partialResult_cons.1 each).2 0

/-! ### Division -/

variable {a b : Numeral}

theorem divisor_zero (operation : String) (zero : b.val = 0) :
    divisor operation (.numeral b) = .error (.byZero operation) := by
  have same : b = .zero := by
    cases b
    cases zero
    rfl
  rw [same]
  rfl

theorem divisor_nonzero (operation : String) (nonzero : b.val ≠ 0) :
    divisor operation (.numeral b) = .ok b := by
  have other : b ≠ .zero := fun same => nonzero (congrArg Numeral.val same)
  exact if_neg other

theorem quotient_numerals (a b : Numeral) : quotient (.numeral a) (.numeral b) =
    divisor Primitive.divide.name (.numeral b) >>= fun n =>
      inRange Primitive.divide.name (a.div? n) :=
  rfl

theorem remainder_numerals (a b : Numeral) : remainder (.numeral a) (.numeral b) =
    divisor Primitive.remainder.name (.numeral b) >>= fun n =>
      inRange Primitive.remainder.name (a.mod? n) :=
  rfl

theorem quotient_exact (a b : Numeral) :
    Exact (quotient (.numeral a) (.numeral b)) (a.val.tdiv b.val)
      (b.val ≠ 0 ∧ Fits (a.val.tdiv b.val)) := by
  rw [quotient_numerals]
  by_cases zero : b.val = 0
  · rw [divisor_zero _ zero]
    exact exact_error rfl fun allowed => allowed.1 zero
  · rw [divisor_nonzero _ zero]
    exact (inRange_exact _ _).congr (and_iff_right zero).symm

theorem remainder_exact (a b : Numeral) :
    Exact (remainder (.numeral a) (.numeral b)) (a.val.tmod b.val)
      (b.val ≠ 0 ∧ Fits (a.val.tmod b.val) ∧ ¬(a.val = -9223372036854775808 ∧ b.val = -1)) := by
  rw [remainder_numerals]
  by_cases zero : b.val = 0
  · rw [divisor_zero _ zero]
    exact exact_error rfl fun allowed => allowed.1 zero
  · rw [divisor_nonzero _ zero]
    change Exact (inRange _ ((Numeral.ofInt? (a.val.tdiv b.val)).bind _)) _ _
    by_cases fits : Fits (a.val.tdiv b.val)
    · obtain ⟨q, -, found⟩ := Numeral.exists_ofInt? fits
      rw [found]
      refine (inRange_exact _ _).congr ⟨fun small => ⟨zero, small, ?_⟩, fun allowed => allowed.2.1⟩
      exact (Numeral.fits_tdiv_iff zero).1 fits
    · rw [Numeral.ofInt?_of_not_fits fits]
      refine exact_error rfl fun allowed => fits ?_
      exact (Numeral.fits_tdiv_iff zero).2 allowed.2.2

end Numerals

/-! ### Applying primitives to numerals -/

namespace Session
open Numeral (Fits)

variable {s : Session} {p : Primitive} {ns : List Numeral} {n : Int} {allowed : Prop}

/-- Whatever the bound on the depth, applying a primitive to numerals gives an exact result or
is refused, and leaves the session as it is. -/
def Computes (s : Session) (p : Primitive) (ns : List Numeral) (n : Int) (allowed : Prop) : Prop :=
  ∃ result, Numerals.Exact result n allowed ∧ ∀ depth,
    (apply (depth + 1) (.primitive p) (ns.map .numeral)).run s = (result.mapError .failed, s)

theorem computes_of_exact (accepts : p.arity.accepts ns.length = true)
    (computed : ∀ apply,
      p.call apply (ns.map .numeral) = Run.ofExcept (p.compute (ns.map .numeral)))
    (exact : Numerals.Exact (p.compute (ns.map .numeral)) n allowed) :
    s.Computes p ns n allowed := by
  rw [← List.length_map Value.numeral] at accepts
  exact ⟨_, exact, fun depth => Primitive.run_apply_computed accepts computed depth s⟩

/-- Sums, products, differences, quotients toward zero and remainders with the sign of the
dividend are exact, or refused as domain failures. -/
theorem arithmetic_exact (s : Session) :
    (∀ ns : List Numeral, ns ≠ [] →
      s.Computes .add ns (ns.map Numeral.val).sum
        (∀ k, Fits ((ns.take k).map Numeral.val).sum) ∧
      s.Computes .multiply ns (ns.map Numeral.val).prod
        (∀ k, Fits ((ns.take k).map Numeral.val).prod)) ∧
    ∀ a b : Numeral,
      s.Computes .subtract [a, b] (a.val - b.val) (Fits (a.val - b.val)) ∧
      s.Computes .divide [a, b] (a.val.tdiv b.val) (b.val ≠ 0 ∧ Fits (a.val.tdiv b.val)) ∧
      s.Computes .remainder [a, b] (a.val.tmod b.val)
        (b.val ≠ 0 ∧ Fits (a.val.tmod b.val) ∧
          ¬(a.val = -9223372036854775808 ∧ b.val = -1)) := by
  refine ⟨fun ns nonempty => ?_, fun a b => ⟨?_, ?_, ?_⟩⟩
  · have accepted (p : Primitive) (arity : p.arity = .atLeast 1) :
        p.arity.accepts ns.length = true := by
      rw [arity]
      exact decide_eq_true (List.length_pos_iff.2 nonempty)
    have sum := Numerals.fold_exact (f := (· + ·)) (fun _ _ => rfl) Primitive.add.name .zero ns
    have product :=
      Numerals.fold_exact (f := (· * ·)) (fun _ _ => rfl) Primitive.multiply.name .one ns
    simp only [Numerals.partialResult, List.take_length] at sum product
    simp only [List.sum_eq_foldl, List.prod_eq_foldl]
    exact ⟨computes_of_exact (accepted _ rfl) (fun _ => rfl) sum,
      computes_of_exact (accepted _ rfl) (fun _ => rfl) product⟩
  · exact computes_of_exact rfl (fun _ => rfl) (Numerals.inRange_exact _ _)
  · exact computes_of_exact rfl (fun _ => rfl) (Numerals.quotient_exact a b)
  · exact computes_of_exact rfl (fun _ => rfl) (Numerals.remainder_exact a b)

/-- On the way from the left the first sum is too large, the second is not. -/
theorem arithmetic_exact_reordered :
    let s : Session := { today := ⟨1970, 1, 31, by decide, by decide, by decide, by decide⟩ }
    let most : Numeral := ⟨9223372036854775807, by decide, by decide⟩
    let one : Numeral := ⟨1, by decide, by decide⟩
    let minusOne : Numeral := ⟨-1, by decide, by decide⟩
    [most, one, minusOne] ≠ [] ∧ ([most, one, minusOne].map Numeral.val).sum = most.val ∧
      (∃ failure : Failure, failure.failureClass = .domain ∧
        ((apply 1 (.primitive .add) ([most, one, minusOne].map .numeral)).run s) =
          (.error (.failed failure), s)) ∧
      [most, minusOne, one] ≠ [] ∧
      ((apply 1 (.primitive .add) ([most, minusOne, one].map .numeral)).run s) =
        (.ok (.numeral most), s) := by
  intro s most one minusOne
  obtain ⟨result, exact, run⟩ := ((arithmetic_exact s).1 [most, one, minusOne] (by simp)).1
  obtain ⟨result', exact', run'⟩ := ((arithmetic_exact s).1 [most, minusOne, one] (by simp)).1
  have passes : ¬∀ k, Fits (([most, one, minusOne].take k).map Numeral.val).sum := fun each =>
    absurd (each 2).2 (by decide)
  have stays (k : Nat) : Fits (([most, minusOne, one].take k).map Numeral.val).sum := by
    match k with
    | 0 | 1 | 2 => exact ⟨by decide, by decide⟩
    | k + 3 =>
      rw [List.take_of_length_le (by simp)]
      exact ⟨by decide, by decide⟩
  refine ⟨by simp, rfl, ?_, by simp, ?_⟩
  · obtain ⟨failure, domain, rfl⟩ := exact.refused passes
    exact ⟨failure, domain, run 0⟩
  · obtain ⟨m, val, rfl⟩ := exact'.answered stays
    have same : m = most := by
      cases m
      cases val
      rfl
    exact same ▸ run' 0

/-- Zero is what is left of the least numeral, but its quotient by minus one is no numeral. -/
theorem remainder_refused_with_quotient :
    let s : Session := { today := ⟨1970, 1, 31, by decide, by decide, by decide, by decide⟩ }
    let least : Numeral := ⟨-9223372036854775808, by decide, by decide⟩
    let minusOne : Numeral := ⟨-1, by decide, by decide⟩
    minusOne.val ≠ 0 ∧ least.val.tmod minusOne.val = 0 ∧ Fits 0 ∧
      ((apply 1 (.primitive .remainder) [.numeral least, .numeral minusOne]).run s).1 =
        .error (.failed (.overflow "mod")) :=
  ⟨by decide, by decide, ⟨by decide, by decide⟩, rfl⟩

end Session
end KinQuery
