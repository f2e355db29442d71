import KinQuery.Proofs.Helper.Counting
import KinQuery.Proofs.Session.Literal

/-! Queries that use the helpers, after the script was run. -/
namespace KinQuery

open Helper (evenValue oddValue firstValue isOdd numerals)
open Numeral (countTo)
open Run (Comes)

variable {before n : Nat} {a : Numeral} {v w : Value} {name : String} {s t : Session}

namespace Helper

/-- The term that applies a name to a numeral. -/
def applied (name : String) (a : Numeral) : Term Value :=
  .compound [.atom name, a.literal]

/-- The term that filters what is counted up to a numeral. -/
def filtered (a : Numeral) : Term Value :=
  .compound [.atom "filter", .atom "odd?", applied "first-n" a]

theorem key_applied (name : String) (a : Numeral) :
    (applied name a).key = "(" ++ name ++ " " ++ a.text ++ ")" := by
  change "(" ++ (name ++ " " ++ a.text) ++ ")" = _
  simp only [String.append_assoc]

theorem key_filtered (a : Numeral) :
    (filtered a).key = "(filter odd? (first-n " ++ a.text ++ "))" := by
  change "(" ++ ("filter" ++ " " ++ "odd?" ++ " " ++ (applied "first-n" a).key) ++ ")" = _
  have spelled : "(" ++ ("filter" ++ (" " ++ ("odd?" ++ (" " ++ ("(" ++ ("first-n" ++ " ")))))) =
      "(filter odd? (first-n " := by decide
  rw [key_applied, ← spelled, ← (by decide : ")" ++ ")" = "))")]
  simp only [String.append_assoc]

/-- The names of helpers are words that can be read. -/
theorem readable_name (member : name ∈ ["filter", "even?", "odd?", "first-n"]) :
    (Term.atom name : Term Value).IsBare ∧ (Term.atom name).IsNeat := by
  refine ⟨.atom (.of_all ?_ ?_), Term.isNeat_of_all ?_ ?_⟩ <;>
  · revert name
    decide

theorem readable_applied (member : name ∈ ["even?", "odd?", "first-n"]) (a : Numeral) :
    (applied name a).IsBare ∧ (applied name a).IsNeat := by
  obtain ⟨bare, neat⟩ := readable_name (List.mem_cons_of_mem _ member)
  refine ⟨.compound ?_, Term.isNeat_compound (by simp) ?_⟩
  · simpa using ⟨bare, .atom a.isAtomText_text⟩
  · simpa using ⟨neat, Value.IsLiteral.isNeat_numeral a⟩

theorem readable_filtered (a : Numeral) : (filtered a).IsBare ∧ (filtered a).IsNeat := by
  have filter := @readable_name "filter" (by simp)
  have odd := @readable_name "odd?" (by simp)
  have inside := @readable_applied "first-n" (by simp) a
  refine ⟨.compound ?_, Term.isNeat_compound (by simp) ?_⟩
  · simpa using ⟨filter.1, odd.1, inside.1⟩
  · simpa using ⟨filter.2, odd.2, inside.2⟩

end Helper

namespace Session

/-- A session in which the script was run, and in which no results are kept. -/
structure HasHelpers (before : Nat) (s : Session) : Prop extends s.IsNamed where
  even : s.definition? "even?" = some (evenValue before)
  odd : s.definition? "odd?" = some (oddValue before)
  first : s.definition? "first-n" = some (firstValue before)
  empty : s.cache.entries = []

/-- After the script, only definitions and the number of lambdas are not as before. -/
theorem foldl_adopt (helpers : List Helper) (s : Session) : ∃ definitions lambdas,
    helpers.foldl adopt s = { s with definitions, lambdas } := by
  induction helpers generalizing s with
  | nil => exact ⟨_, _, rfl⟩
  | cons h helpers ih =>
    obtain ⟨definitions, lambdas, same⟩ := ih (s.adopt h)
    exact ⟨definitions, lambdas, same⟩

theorem hasHelpers (new : s.IsFresh) (settled : s.cache.pending = []) (empty : s.cache.entries = [])
    (enabled : Bool) : HasHelpers s.lambdas ((Helper.all.foldl adopt s).setCaching enabled) := by
  have ran := execScript_helpers new settled 0
  have orderly := (execScript_orderly 1 Resource.helperScript new.isOrderly).1
  rw [ran] at orderly
  have kept : (Helper.all.foldl adopt s).cache = s.cache := by
    obtain ⟨definitions, lambdas, same⟩ := foldl_adopt Helper.all s
    rw [same]
  refine ⟨orderly.toIsNamed.sameNames ⟨rfl, rfl⟩, ?even, ?odd, ?first, ?empty⟩
  case empty =>
    change (Helper.all.foldl adopt s).cache.entries = []
    rw [kept, empty]
  all_goals
    obtain ⟨hosts, definitions, cache, genealogy, dictionary, today, lambdas, calls⟩ := s
    obtain rfl : definitions = [] := new.definitions
    rfl

namespace HasHelpers

theorem runsHelpers (helped : s.HasHelpers before) :
    (s.mapCache .discard).RunsHelpers before := by
  refine ⟨helped.toIsNamed.sameNames ⟨rfl, rfl⟩, helped.first, fun parts v w _ found => ?_⟩
  simp [mapCache, Cache.discard, Cache.get?, helped.empty] at found

theorem substitute_applied (helped : s.HasHelpers before) (defined : s.definition? name = some v)
    (a : Numeral) :
    (Helper.applied name a).substitute s.bindings = .compound [.value v, a.literal] := by
  have free := (helped.of_definition? defined).1.2
  have notDefine : name ≠ "define" := by
    rintro rfl
    cases free
  have head : (Term.atom name).substitute s.bindings = .value v := by
    rw [Term.substitute, bindings, defined]
  have argument : a.literal.substitute s.bindings = a.literal :=
    Value.IsLiteral.substitute (.numeral a) helped.toIsNamed
  rw [Helper.applied, Term.substitute_parts _ (by simpa using notDefine) (by simp), List.map_cons,
    List.map_singleton, head, argument]

theorem substitute_filtered (helped : s.HasHelpers before) (a : Numeral) :
    (Helper.filtered a).substitute s.bindings = .compound [.atom "filter", .value (oddValue before),
      .compound [.value (firstValue before), a.literal]] := by
  have undefined : s.definition? "filter" = none := helped.undefined_primitive .filter
  have head : (Term.atom "filter").substitute s.bindings = .atom "filter" := by
    rw [Term.substitute, bindings, undefined]
  have odd : (Term.atom "odd?").substitute s.bindings = .value (oddValue before) := by
    rw [Term.substitute, bindings, helped.odd]
  rw [Helper.filtered, Term.substitute_parts _ (by simp) (by simp), List.map_cons, List.map_cons,
    List.map_singleton, head, odd, helped.substitute_applied helped.first]

/-- A query is answered with what its term comes to in all sessions with the helpers. -/
theorem exec_of_comes (helped : s.HasHelpers before) {u u' : Term Value}
    (readable : u.IsBare ∧ u.IsNeat) (special : u.specialForm? = none)
    (inPlace : u.substitute s.bindings = u') (comes : Comes before (eval n u') v) :
    (s.exec n u.key).1 = .ok v := by
  obtain ⟨t, -, ran⟩ := comes _ helped.runsHelpers
  exact exec_of_eval (Term.readQuery_key readable.1 readable.2) special inPlace ran

end HasHelpers

/-- In a new session the script defines the helpers. Then, whether results are kept or not,
`first-n` counts from zero to every numeral, `odd?` and `even?` tell whether it is odd or even,
and the odd numbers are filtered from what is counted. -/
theorem helpers_compute (genealogy : Genealogy) (dictionary : Dictionary) (today : Date)
    (lambdas : Nat) (enabled : Bool) (n : Numeral) :
    let start : Session := { genealogy, dictionary, today, lambdas, cache := { enabled } }
    let counted : List Int := (List.range (n.val + 1).toNat).map fun i : Nat => (i : Int)
    ∃ helped : Session,
      (∀ depth, 1 ≤ depth → start.execScript depth Resource.helperScript = (.ok 12, helped)) ∧
      ∃ bound, ∀ depth, bound ≤ depth → ∀ caching : Bool,
        let answer := fun query => ((helped.setCaching caching).exec depth query).1
        (∃ ns : List Numeral, ns.map Numeral.val = counted ∧
          answer ("(first-n " ++ n.text ++ ")") = .ok (.list (ns.map .numeral))) ∧
        (n.val < 0 → answer ("(first-n " ++ n.text ++ ")") = .ok .vacant) ∧
        answer ("(odd? " ++ n.text ++ ")") = .ok (.boolean (decide (Odd n.val))) ∧
        answer ("(even? " ++ n.text ++ ")") = .ok (.boolean (decide (Even n.val))) ∧
        ∃ ns : List Numeral, ns.map Numeral.val = counted.filter (fun i => decide (Odd i)) ∧
          answer ("(filter odd? (first-n " ++ n.text ++ "))") = .ok (.list (ns.map .numeral)) := by
  intro start counted
  have new : start.IsFresh := ⟨rfl, rfl⟩
  obtain ⟨bound, below, counts⟩ : ∃ bound : Nat, n.val < bound ∧ (n.val + 1).toNat = bound :=
    ⟨_, by omega, rfl⟩
  refine ⟨Helper.all.foldl adopt start, fun depth deep => ?_, 4 * bound + 9,
    fun depth deep caching => ?_⟩
  · obtain ⟨d, rfl⟩ : ∃ d, depth = d + 1 := ⟨depth - 1, by omega⟩
    exact execScript_helpers new rfl d
  obtain ⟨d, rfl⟩ : ∃ d, depth = d + 4 * bound + 9 := ⟨depth - (4 * bound + 9), by omega⟩
  intro answer
  have helped := hasHelpers new rfl rfl caching
  have first : answer ("(first-n " ++ n.text ++ ")") = .ok (numerals (countTo n.val)) := by
    have comes := Helper.comes_first (.literal n) below start.lambdas (d + 4)
    rw [show d + 4 + 4 * bound + 5 = d + 4 * bound + 9 by omega] at comes
    exact Helper.key_applied "first-n" n ▸ helped.exec_of_comes
      (Helper.readable_applied (by simp) n) rfl (helped.substitute_applied helped.first n) comes
  have odd : answer ("(odd? " ++ n.text ++ ")") = .ok (.boolean (isOdd n)) :=
    Helper.key_applied "odd?" n ▸ helped.exec_of_comes
      (Helper.readable_applied (by simp) n) rfl (helped.substitute_applied helped.odd n)
      (Helper.comes_odd (.literal n) start.lambdas (d + 4 * bound + 1))
  have even : answer ("(even? " ++ n.text ++ ")") = .ok (.boolean !isOdd n) :=
    Helper.key_applied "even?" n ▸ helped.exec_of_comes
      (Helper.readable_applied (by simp) n) rfl (helped.substitute_applied helped.even n)
      (Helper.comes_even (.literal n) start.lambdas (d + 4 * bound + 4))
  have filtered : answer ("(filter odd? (first-n " ++ n.text ++ "))") =
      .ok (numerals ((countTo n.val).filter isOdd)) :=
    Helper.key_filtered n ▸ helped.exec_of_comes (Helper.readable_filtered n) rfl
      (helped.substitute_filtered n) (Helper.comes_filter (.literal n) below start.lambdas d)
  refine ⟨⟨countTo n.val, n.map_val_countTo, first⟩, fun negative => ?_, odd, ?_,
    (countTo n.val).filter isOdd, ?_, filtered⟩
  · rw [first, Numeral.countTo_of_neg negative]
    rfl
  · rw [even, isOdd, ← decide_not, decide_eq_decide.2 Int.not_odd_iff_even]
  · change _ = List.filter _ ((List.range _).map _)
    rw [← n.map_val_countTo, List.filter_map]
    rfl

end Session
end KinQuery
