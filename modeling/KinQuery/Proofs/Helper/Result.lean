import KinQuery.Proofs.Function.Arithmetic
import KinQuery.Proofs.Helper.Script
import KinQuery.Proofs.Session.Cache
import Mathlib.Algebra.Ring.Int.Parity

/-! What the helpers that count and that tell parity come to, and the results kept on the way.

Whatever results are kept of such applications, they are right, and no two applications with
different results have one key. So it does not matter to the helpers whether results are kept. -/
namespace KinQuery

variable {parts : List (Term Value)} {v w : Value} {a b : Numeral}

namespace Numeral

/-- The literal of a numeral. -/
def literal (a : Numeral) : Term Value :=
  .atom a.text

@[simp] theorem text_inj : a.text = b.text ↔ a = b := by
  refine ⟨fun same => ?_, congrArg text⟩
  have word (c : Numeral) : (Value.numeral c).IsWord := trivial
  have key (c : Numeral) : (Value.numeral c).key = c.text := by rw [Value.key, Value.spell]
  exact Value.numeral.inj ((word a).eq_of_key (word b) (by rw [key, key, same]))

def two : Numeral := ⟨2, by decide, by decide⟩

/-- A natural number, if it is not too large. -/
def natural (i : Nat) : Numeral :=
  nearest i

theorem val_natural {i : Nat} (small : (i : Int) < 9223372036854775808) : (natural i).val = i := by
  rw [natural]
  exact val_nearest (by omega) small

theorem natural_toNat (a : Numeral) (nonneg : 0 ≤ a.val) : natural a.val.toNat = a := by
  have same : (a.val.toNat : Int) = a.val := by omega
  have val := val_natural (lt_of_eq_of_lt same a.upper)
  rw [same] at val
  generalize natural a.val.toNat = b at val
  cases b
  cases val
  rfl

/-- The numerals 0, 1, ..., n. -/
def countTo (n : Int) : List Numeral :=
  (List.range (n + 1).toNat).map natural

theorem countTo_of_neg {n : Int} (negative : n < 0) : countTo n = [] := by
  have none : (n + 1).toNat = 0 := by omega
  rw [countTo, none]
  rfl

theorem countTo_append (a : Numeral) (nonneg : 0 ≤ a.val) :
    countTo a.val = countTo (a.val - 1) ++ [a] := by
  have more : (a.val + 1).toNat = a.val.toNat + 1 := by omega
  rw [countTo, countTo, Int.sub_add_cancel, more, List.range_succ, List.map_append,
    List.map_singleton, a.natural_toNat nonneg]

theorem map_val_countTo (a : Numeral) :
    (countTo a.val).map val = (List.range (a.val + 1).toNat).map fun i : Nat => (i : Int) := by
  -- About any function, since comparing terms in which `natural` is applied unfolds it.
  have counted (f : Nat → Numeral) (m : Nat) (exact : ∀ i ∈ List.range m, (f i).val = i) :
      ((List.range m).map f).map val = (List.range m).map fun i : Nat => (i : Int) := by
    rw [List.map_map]
    exact List.map_congr_left exact
  rw [countTo]
  refine counted natural _ fun i member => val_natural ?_
  have small := List.mem_range.1 member
  have upper := a.upper
  omega

end Numeral

/-! ### Results -/

namespace Helper
open Numeral (countTo)

/-- `(lambda (n) (not (even? n)))`, with what `even?` stands for written out. -/
def oddWritten : Term Value :=
  .compound [.atom "lambda", .compound [.atom "n"],
    .compound [.atom "not", .compound [even.lambda, .atom "n"]]]

def isOdd (a : Numeral) : Bool :=
  decide (Odd a.val)

def numerals (ns : List Numeral) : Value :=
  .list (ns.map .numeral)

/-- The applications that are made by the helpers, written out, and their results. -/
inductive Result : List (Term Value) → Value → Prop
  | primitive {p : Primitive} {a b : Numeral} {v : Value} :
      p.compute [.numeral a, .numeral b] = .ok v → Result [.atom p.name, a.literal, b.literal] v
  | equal (a : Numeral) : Result
      [.atom "=", .compound [.atom "mod", a.literal, Numeral.two.literal], Numeral.zero.literal]
      (.boolean !isOdd a)
  | even (a : Numeral) : Result [even.lambda, a.literal] (.boolean !isOdd a)
  | not (a : Numeral) :
      Result [.atom "not", .compound [even.lambda, a.literal]] (.boolean (isOdd a))
  | odd (a : Numeral) : Result [oddWritten, a.literal] (.boolean (isOdd a))
  | first (a : Numeral) : Result [first.lambda, a.literal] (numerals (countTo a.val))
  | before {a : Numeral} : 0 ≤ a.val →
      Result [.atom "first-n", .compound [.atom "-", a.literal, Numeral.one.literal]]
        (numerals (countTo (a.val - 1)))
  | append {a : Numeral} : 0 ≤ a.val →
      Result [.atom "append", .compound [.atom "first-n",
        .compound [.atom "-", a.literal, Numeral.one.literal]], a.literal]
        (numerals (countTo a.val))
  | filter (a : Numeral) : Result [.atom "filter", oddWritten, .compound [first.lambda, a.literal]]
      (numerals ((countTo a.val).filter isOdd))

namespace Result

/-- What is written alike has one result. -/
theorem unique (h : Result parts v) (h' : Result parts w) : v = w := by
  generalize same : parts = others at h'
  cases h <;> cases h' <;>
    simp_all [Numeral.literal, Primitive.name_inj, Helper.even, Helper.first, oddWritten, lambda,
      evenBody, firstBody]

theorem isBare (h : Result parts v) : (Term.compound parts).IsBare := by
  have word {text : String} (member : text ∈ ["lambda", "n", "=", "mod", "2", "0", "not", "if",
      "<", "vacant", "append", "first-n", "-", "1", "filter"]) :
      (Term.atom text : Term Value).IsBare := by
    refine .atom (.of_all ?_ ?_) <;>
    · revert text
      decide
  have primitive (p : Primitive) : (Term.atom p.name : Term Value).IsBare := .atom p.isAtomText_name
  have literal (a : Numeral) : a.literal.IsBare := .atom a.isAtomText_text
  have compound (parts : List (Term Value)) :
      (Term.compound parts).IsBare ↔ ∀ part ∈ parts, part.IsBare := ⟨fun h _ => h.part, .compound⟩
  cases h <;> simp [compound, word, primitive, literal, oddWritten, lambda, SpecialForm.word,
    Helper.even, Helper.first, evenBody, firstBody]

theorem eq_of_key {others : List (Term Value)} (h : Result parts v) (h' : Result others w)
    (same : (Term.compound parts).key = (Term.compound others).key) : v = w := by
  cases h.isBare.eq_of_key h'.isBare same
  exact h.unique h'

end Result

/-! ### What the helpers become -/

/-- The values of the helpers if `before` lambdas were made before the script was run. -/
def evenValue (before : Nat) : Value :=
  .function (.lambda (before + 5) ["n"] evenBody)

def oddValue (before : Nat) : Value :=
  .function (.lambda (before + 6) ["n"]
    (.compound [.atom "not", .compound [.value (evenValue before), .atom "n"]]))

def firstValue (before : Nat) : Value :=
  .function (.lambda (before + 7) ["n"] firstBody)

theorem expand_oddValue (before : Nat) : (oddValue before).expand = oddWritten := by
  rfl

theorem expand_firstValue (before : Nat) : (firstValue before).expand = first.lambda := by
  rfl

end Helper

/-! ### Sessions -/

variable {s t : Session} {before n : Nat} {α β : Type}

/-- A session in which the helpers can be run: they are defined, and of their results only right
ones are kept. -/
structure Session.RunsHelpers (before : Nat) (s : Session) : Prop extends s.IsNamed where
  first : s.definition? "first-n" = some (Helper.firstValue before)
  kept : ∀ parts v w, Helper.Result parts v →
    s.cache.get? (Term.compound parts).key = some w → w = v

namespace Session.RunsHelpers

theorem sameButTree (runs : s.RunsHelpers before) (same : s.SameButTree t) :
    t.RunsHelpers before := by
  have named := runs.toIsNamed.sameNames same.sameNames
  rcases same with rfl | rfl
  · exact runs
  · exact ⟨named, runs.first, runs.kept⟩

/-- A result that is kept is right for all applications with its key. -/
theorem remember (runs : s.RunsHelpers before) (result : Helper.Result parts v) :
    ∃ t, t.RunsHelpers before ∧ (remember (Term.compound parts).key v).run s = (.ok (), t) := by
  refine ⟨_, ?_, Run.run_modify _ s⟩
  split
  · refine ⟨runs.toIsNamed.sameNames ⟨rfl, rfl⟩, runs.first, fun others u w result' found => ?_⟩
    change (s.cache.put _ _).get? _ = _ at found
    rw [Cache.get?_put] at found
    rcases Option.or_eq_some_iff.1 found with old | ⟨-, new⟩
    · exact runs.kept others u w result' old
    · split at new
      · rename_i same
        cases new
        exact result.eq_of_key result' same.symm
      · cases new
  · exact runs

end Session.RunsHelpers

/-! ### Computations -/

/-- Wherever the helpers can be run, the computation has this value, and they still can. -/
def Run.Comes (before : Nat) (m : Run α) (a : α) : Prop :=
  ∀ s : Session, s.RunsHelpers before → ∃ t : Session, t.RunsHelpers before ∧ m.run s = (.ok a, t)

namespace Run.Comes
variable {m : Run α} {f : α → Run β} {a : α} {b : β}

theorem pure (before : Nat) (a : α) : Comes before (Pure.pure a) a :=
  fun s runs => ⟨s, runs, rfl⟩

theorem bind (first : Comes before m a) (next : Comes before (f a) b) :
    Comes before (m >>= f) b := by
  intro s runs
  obtain ⟨t, runs', ran⟩ := first s runs
  obtain ⟨u, runs'', ran'⟩ := next t runs'
  exact ⟨u, runs'', (run_bind_ok ran).trans ran'⟩

theorem mapM {f : α → Run β} {as : List α} {bs : List β}
    (each : List.Forall₂ (fun a b => Comes before (f a) b) as bs) :
    Comes before (as.mapM f) bs := by
  induction each with
  | nil => exact pure before []
  | cons first _ ih =>
    rw [List.mapM_cons]
    exact first.bind (ih.bind (pure before _))

/-- A word is read back as its value. -/
theorem word (isWord : v.IsWord) (before n : Nat) :
    Comes before (eval (n + 1) (.atom v.key)) v := by
  intro s runs
  obtain ⟨t, same, ran⟩ := run_evalAtom v.key s
  rw [isWord.atomAnswer_key] at ran
  exact ⟨t, runs.sameButTree same, ran⟩

/-- An application is answered from the results that are kept, or made and kept. -/
theorem application {head : Term Value} {arguments : List (Term Value)}
    (special : (Term.compound (head :: arguments)).specialForm? = none)
    (result : Helper.Result ((head :: arguments).map Term.expand) v)
    (applied : Comes before (applyTo (eval n) (apply n) head arguments) v) :
    Comes before (eval (n + 1) (.compound (head :: arguments))) v := by
  intro s runs
  have key : (Term.compound ((head :: arguments).map Term.expand)).key =
      (Term.compound (head :: arguments)).key := by
    rw [← Term.expand_compound, Term.key_expand]
  have opened : (eval (n + 1) (.compound (head :: arguments))).run s =
      (evalApplication (eval n) (apply n) head arguments).run s := by
    rw [eval_compound, evalCompound, special]
  rw [opened]
  cases enabled : s.cache.enabled with
  | true =>
    cases found : s.cache.get? (Term.compound (head :: arguments)).key with
    | some w =>
      obtain rfl := runs.kept _ _ _ result (key ▸ found)
      exact ⟨s, runs, run_evalApplication_kept enabled found⟩
    | none =>
      obtain ⟨t, runs', ran⟩ := applied s runs
      obtain ⟨u, runs'', kept⟩ := runs'.remember result
      rw [key] at kept
      refine ⟨u, runs'', ?_⟩
      rw [run_evalApplication_new enabled found, run_bind_ok ran, run_bind_ok kept]
      rfl
  | false =>
    rw [run_evalApplication_uncached enabled]
    exact applied s runs

end Run.Comes
end KinQuery
