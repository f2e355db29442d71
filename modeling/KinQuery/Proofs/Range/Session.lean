import KinQuery.Proofs.Evaluation.Contract
import KinQuery.Proofs.Range.Primitive
import KinQuery.Proofs.Session.Tree

/-! Nothing goes out of range in a session.

Whatever a session lived through, its genealogy is one that edits reach, and it stays so at every
point of a query. So wherever evaluation calls a primitive function, the arguments were counted,
and all that the call does by position is in range; and so it is where evaluation reads a
literal. -/
namespace KinQuery

namespace Session
variable {s : Session}

/-- What stays in range in a session: calls with as many arguments as the function takes, whatever
they are, and literals, but for dates whose day is spelled with a digit without a value. -/
structure InRange (s : Session) : Prop where
  call : s.Fits → ∀ apply p arguments, p.arity.accepts arguments.length = true →
    (∀ v ∈ arguments, v.Fits) →
    (p = .date → ∀ text, .string text ∈ arguments → Date.HasPlainDay text) →
      Checked.Follows (s.genealogy.people.length ≤ 2 ^ 32) (Checked.call apply p arguments)
        (p.call apply arguments) s
  literal : ∀ kind text, Date.HasPlainDay text →
    Checked.Follows True (Checked.readLiteral kind text) (readLiteral kind text) s

theorem inRange_of_reachable (reached : s.genealogy.Reachable) : s.InRange where
  call session apply _ _ accepts fits plain :=
    Checked.call_follows reached session accepts fits plain apply
  literal _ _ plain := Checked.readLiteral_follows reached plain

/-- In a session that lived through anything, calls and literals stay in range. And nothing that
is evaluated in it depends on what a call does with a number of arguments that the function does
not take, on what is read from a text that is no literal, or on what either does in a session
where something is out of range. -/
theorem Lived.stays_in_range (lived : s.Lived) :
    s.InRange ∧ ∀ W : Workings, W.Agrees InRange →
      (∀ depth query, W.exec depth query s = s.exec depth query) ∧
      (∀ depth t, (W.eval depth t).run s = (KinQuery.eval depth t).run s) ∧
      ∀ depth f arguments,
        (W.apply depth f arguments).run s = (KinQuery.apply depth f arguments).run s := by
  refine ⟨inRange_of_reachable lived.reachable, fun W agrees => ?_⟩
  have agree (depth : Nat) := (agrees.mono fun _ => inRange_of_reachable).eval_and_apply
    Run.editingContract (fun _ => trivial) (fun _ => trivial) depth
  refine ⟨fun depth query => Workings.exec_eq fun task _ => ?_,
    fun depth t => (agree depth).1 t s lived.reachable,
    fun depth f arguments => (agree depth).2 f arguments s lived.reachable⟩
  exact (agree depth).1 task.term (s.mapCache .discard) lived.reachable

/-- Bob is found in range to be the father of Cyd. And if `count` without arguments gave nothing,
no query would tell. -/
theorem Lived.stays_in_range_father :
    ∃ (s : Session) (bob cyd : Profile) (W : Workings), s.Lived ∧ s.Fits ∧
      (Checked.call (KinQuery.apply 3) .kinship [.person bob, .person cyd]).run s =
        some (.ok (.list [.string "father"]), s.tree.2) ∧
      W.Agrees InRange ∧ (W.call (KinQuery.apply 3) .count []).run s = (.ok .void, s) ∧
      ∀ depth query, W.exec depth query s = s.exec depth query := by
  let today : Date := ⟨2020, 6, 15, by decide, by decide, by decide, by decide⟩
  let s : Session := { genealogy := Genealogy.threesome, today }
  let bob : Profile := Genealogy.threesome.people.get ⟨1, by decide⟩
  let cyd : Profile := Genealogy.threesome.people.get ⟨2, by decide⟩
  let W : Workings :=
    { call apply p arguments :=
        if p.arity.accepts arguments.length then p.call apply arguments else pure .void
      literal := readLiteral }
  have lived : s.Lived := .start {} today Genealogy.threesome_accepted
  have session : s.Fits := ⟨by decide, by decide⟩
  have fits : ∀ v ∈ [Value.person bob, .person cyd], v.Fits :=
    List.forall_mem_cons.2 ⟨rfl, List.forall_mem_singleton.2 rfl⟩
  have agrees : W.Agrees InRange :=
    { call _ _ _ _ _ accepts := congrFun (congrArg ExceptT.run (if_pos accepts)) _
      literal _ _ _ _ _ := rfl }
  have father : s.tree.1.kinship 1 2 = [.father] := by decide +kernel
  obtain ⟨inRange, same⟩ := lived.stays_in_range
  obtain ⟨outcome, run, exactly⟩ := inRange.call session (KinQuery.apply 3) .kinship _ rfl fits
    (by simp)
  have found : outcome =
      (.ok (People.strings ((s.tree.1.kinship 1 2).map Kin.word)), s.tree.2) := exactly (by decide)
  rw [father] at found
  exact ⟨s, bob, cyd, W, lived, session, run.trans (congrArg some found), agrees, rfl,
    (same W agrees).1⟩

end Session
end KinQuery
