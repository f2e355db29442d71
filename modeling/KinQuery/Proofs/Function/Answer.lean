import KinQuery.Proofs.Evaluation.Triple
import KinQuery.Proofs.Function.Parametric

/-! The primitives that do not call functions.

What they answer depends on their arguments, the family tree, the dictionary and the date of
today. All that such a call can change of a session is that the family tree is remembered, but
for the one primitive that adds to the dictionary. -/
namespace KinQuery

open List (Forall₂)

namespace Session

/-- The two sessions differ at most in whether the family tree is remembered. -/
def SameButTree (s t : Session) : Prop :=
  t = s ∨ t = s.tree.2

theorem tree_snd_eq (s : Session) : s.tree.2 = { s with genealogy := s.genealogy.tree.2 } := rfl

theorem tree_fst_eq (s : Session) : s.tree.1 = s.genealogy.tree.1 := rfl

/-- Results are forgotten exactly with an addition that was made. -/
theorem putKinshipTerm_eq (s : Session) (key name : String) :
    s.putKinshipTerm key name = ((s.dictionary.put key name).1, { s with
      dictionary := (s.dictionary.put key name).2
      cache := if (s.dictionary.put key name).1 = .ok true then s.cache.expunge else s.cache }) := by
  unfold putKinshipTerm
  split
  · rename_i made
    rw [made, if_pos rfl]
  · rename_i result dictionary other h
    have notMade : result ≠ .ok true := other
    rw [h, if_neg notMade]

end Session

theorem Genealogy.snapshot_tree (g : Genealogy) : g.tree.2.snapshot = g.snapshot := by
  unfold Genealogy.tree
  split <;> rfl

theorem Genealogy.tree_tree (g : Genealogy) : g.tree.2.tree = g.tree := by
  cases h : g.tree? <;> simp [Genealogy.tree, h]

namespace Primitive

/-- Primitives whose calls only read the session. -/
def Reads (p : Primitive) : Prop :=
  p ≠ .filter ∧ p ≠ .map ∧ p ≠ .putKinshipTerm

/-- What a primitive that only reads answers. -/
def answer (p : Primitive) (tree : FamilyTree) (dictionary : Dictionary) (today : Date)
    (arguments : List Value) : Except Failure Value :=
  match p with
  | person => People.find tree arguments
  | father => p.unary arguments (People.related tree p.name (·.father.toList))
  | mother => p.unary arguments (People.related tree p.name (·.mother.toList))
  | spouse => p.unary arguments (People.related tree p.name (·.spouse.toList))
  | children => p.unary arguments (People.related tree p.name (·.children))
  | attr => p.binary arguments (People.attributeNamed tree today)
  | kinship => p.binary arguments (People.kinship tree)
  | generationDistance => p.binary arguments (People.generationDistance tree)
  | shorten => p.unary arguments (People.shorten dictionary)
  | relatives => p.binary arguments (People.relatives tree dictionary)
  | p => p.compute arguments

theorem run_consult (f : FamilyTree → Session → Except Failure Value) (s : Session) :
    (consult f).run s = ((f s.tree.1 s.tree.2).mapError .failed, s.tree.2) := by
  have seen : Run.tree.run s = (.ok s.tree.1, s.tree.2) := rfl
  unfold consult
  rw [Run.run_bind_ok seen, Run.run_bind_ok (Run.run_get _), Run.run_ofExcept]

/-- The outcome of a call of a primitive that only reads. -/
theorem run_call {p : Primitive} (reads : p.Reads)
    (apply : Function Value → List Value → Run Value) (arguments : List Value) (s : Session) :
    ∃ t, s.SameButTree t ∧ (p.call apply arguments).run s =
      ((p.answer s.tree.1 s.dictionary s.today arguments).mapError .failed, t) := by
  have computed := Run.run_ofExcept (p.compute arguments) s
  cases p
  case filter => exact absurd rfl reads.1
  case map => exact absurd rfl reads.2.1
  case putKinshipTerm => exact absurd rfl reads.2.2
  case person | father | mother | spouse | children | attr | kinship | generationDistance
      | relatives =>
    exact ⟨_, .inr rfl, run_consult _ s⟩
  case shorten =>
    refine ⟨s, .inl rfl, ?_⟩
    rw [call, Run.run_bind_ok (Run.run_get s), Run.run_ofExcept]
    rfl
  all_goals exact ⟨s, .inl rfl, computed⟩

/-- A call that depends on its arguments alone has the same outcome in all sessions. -/
theorem run_apply_computed {p : Primitive} {arguments : List Value}
    (accepts : p.arity.accepts arguments.length = true)
    (computed : ∀ apply, p.call apply arguments = Run.ofExcept (p.compute arguments))
    (depth : Nat) (s : Session) : (apply (depth + 1) (.primitive p) arguments).run s =
      ((p.compute arguments).mapError .failed, s) := by
  have arity : (Function.primitive p : Function Value).checkArity arguments.length = .ok () :=
    if_pos accepts
  rw [apply_primitive, arity, Run.ofExcept_ok, pure_bind, computed, Run.run_ofExcept]

/-! ### Calls that keep to a discipline -/

section Discipline
variable {D : Run.Discipline} {Q : Value → Prop} {arguments : List Value}

/-- That the family tree is remembered is all that the computation changes. -/
theorem triple_of_sameButTree {m : Run Value}
    (kept : ∀ s t, D.holds s → s.SameButTree t → D.holds t ∧ D.change s t)
    (run : ∀ s, D.holds s → ∃ t r, s.SameButTree t ∧ m.run s = (Except.mapError .failed r, t) ∧
      ∀ v, r = .ok v → Q v) : Run.Triple D Q m := by
  intro s hs
  obtain ⟨t, r, same, run, good⟩ := run s hs
  obtain ⟨holds, change⟩ := kept s t hs same
  rw [run]
  exact ⟨holds, change, fun v hv => good v (Run.mapError_eq_ok.1 hv)⟩

theorem triple_callPut (void : Q .void)
    (added : ∀ s, D.holds s → ∀ key name, .string name ∈ arguments →
      D.holds (s.putKinshipTerm key name).2 ∧ D.change s (s.putKinshipTerm key name).2) :
    Run.Triple D Q (callPut arguments) := by
  unfold callPut
  split
  · rename_i a b
    have string (name : String) (h : b.asString putKinshipTerm.name = .ok name) :
        .string name ∈ [a, b] := by
      cases b <;> cases h
      simp
    refine (Run.Triple.ofExcept (Q := fun _ => True) fun _ _ => trivial).bind fun key _ => ?_
    refine (Run.Triple.ofExcept string).bind fun name member => ?_
    refine Run.Triple.bind (Q := fun _ => True) ?_ fun _ _ => Run.Triple.pure void
    refine (Run.Triple.modifyGet (Q := fun _ => True) fun s hs => ?_).bind fun _ _ =>
      Run.Triple.ofExcept fun _ _ => trivial
    obtain ⟨holds, change⟩ := added s hs key name member
    exact ⟨holds, change, trivial⟩
  · exact Run.Triple.ofExcept fun _ h => by cases h

/-- What the primitives keep to that do not call functions. -/
theorem triple_call {p : Primitive} (apply : Function Value → List Value → Run Value)
    (hf : p ≠ .filter) (hm : p ≠ .map) (void : Q .void)
    (kept : ∀ s t, D.holds s → s.SameButTree t → D.holds t ∧ D.change s t)
    (answered : ∀ s, D.holds s → ∀ v, p.answer s.tree.1 s.dictionary s.today arguments = .ok v → Q v)
    (added : p = .putKinshipTerm → ∀ s, D.holds s → ∀ key name, .string name ∈ arguments →
      D.holds (s.putKinshipTerm key name).2 ∧ D.change s (s.putKinshipTerm key name).2) :
    Run.Triple D Q (p.call apply arguments) := by
  by_cases put : p = .putKinshipTerm
  · subst put
    exact triple_callPut void (added rfl)
  · refine triple_of_sameButTree kept fun s hs => ?_
    obtain ⟨t, same, run⟩ := run_call ⟨hf, hm, put⟩ apply arguments s
    exact ⟨t, _, same, run, answered s hs⟩

end Discipline

/-- Primitives that only read cannot look inside functions. -/
theorem answer_matches {F : Function Value → Function Value → Prop} (p : Primitive)
    (faithful : p = .equal → Value.Faithful F) (tree : FamilyTree) (dictionary : Dictionary)
    (today : Date) {xs ys : List Value} (h : Forall₂ (Value.Lift F) xs ys) :
    Matches (Value.Lift F) (p.answer tree dictionary today xs)
      (p.answer tree dictionary today ys) := by
  have computed := p.compute_matches faithful h
  cases p
  case person => exact People.find_matches tree h
  case father | mother | spouse | children =>
    exact unary_matches _ h fun _ _ ha => People.related_matches tree _ _ ha
  case attr =>
    exact binary_matches _ h fun _ _ ha _ _ hb => People.attributeNamed_matches tree today ha hb
  case kinship => exact binary_matches _ h fun _ _ ha _ _ hb => People.kinship_matches tree ha hb
  case generationDistance =>
    exact binary_matches _ h fun _ _ ha _ _ hb => People.generationDistance_matches tree ha hb
  case shorten => exact unary_matches _ h fun _ _ ha => People.shorten_matches dictionary ha
  case relatives =>
    exact binary_matches _ h fun _ _ ha _ _ hb => People.relatives_matches tree dictionary ha hb
  all_goals exact computed

end Primitive
end KinQuery
