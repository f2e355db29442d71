import KinQuery.Proofs.Evaluation.Task
import KinQuery.Proofs.Evaluation.Word
import KinQuery.Proofs.Term.Literal

/-! Queries that define a name that is free. -/
namespace KinQuery

variable {s u : Session} {t : Term Value} {v : Value} {name query : String} {depth : Nat}

/-- The term that defines a name. -/
def Term.definition (name : String) (t : Term Value) : Term Value :=
  .compound [.atom SpecialForm.define.word, .atom name, t]

theorem readQuery_definition (reference : isReference name = true)
    (spelled : (Term.atom name : Term Value).IsNeat) (bare : t.IsBare) (neat : t.IsNeat) :
    readQuery (Term.definition name t).key = .ok (Term.definition name t) := by
  have word : IsAtomText SpecialForm.define.word.toList := isAtomText_of_isReference (by decide)
  have neatWord : (Term.atom SpecialForm.define.word : Term Value).IsNeat :=
    Term.isNeat_letters (by decide) (by decide)
  refine Term.readQuery_key (.compound ?_) (Term.isNeat_compound (by simp) ?_)
  · simpa using ⟨.atom word, .atom (isAtomText_of_isReference reference), bare⟩
  · simpa using ⟨neatWord, spelled, neat⟩

/-- A name that is free is defined with what the term comes to. -/
theorem Session.exec_definition (read : readQuery query = .ok (Term.definition name t))
    (reference : isReference name = true) (free : checkUndefined s name = .ok ())
    (run : (eval depth (t.substitute s.bindings)).run (s.mapCache .discard) = (.ok v, u)) :
    s.exec depth query =
      (.ok .void, mapCache { u with definitions := (name, v) :: u.definitions } .commit) := by
  have task : s.taskOf (Term.definition name t) = .ok ⟨some name, t⟩ := by
    have named : definedName [.atom SpecialForm.define.word, .atom name, t] = .ok name :=
      if_pos reference
    change s.definitionOf [.atom SpecialForm.define.word, .atom name, t] = _
    rw [definitionOf, named]
    change (do checkUndefined s name; .ok ⟨some name, t⟩ : Except Failure Task) = _
    rw [free]
    rfl
  rw [exec_of_read read, task]
  change closed (Task.run ⟨some name, t.substitute s.bindings⟩ depth (s.mapCache .discard)) = _
  rw [Task.run, Task.runBy, run]
  rfl

end KinQuery
