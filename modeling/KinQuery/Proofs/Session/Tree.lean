import KinQuery.Proofs.Evaluation.Naming
import KinQuery.Proofs.Evaluation.Task
import KinQuery.Proofs.Family.InPlace
import KinQuery.Proofs.Family.Mirror

/-! The family tree that a session remembers is never out of date.

Edits that succeed drop the tree, edits that fail change nothing, and queries do no more to the
genealogy than to remember its tree. So whatever becomes of a session, its genealogy is one that
edits alone could have led to. -/
namespace KinQuery

namespace Genealogy
variable {g : Genealogy}

theorem Reachable.editInPlace (reached : g.Reachable) (edit : Edit) :
    (g.editInPlace edit).2.Reachable := by
  have attempted := reached.attempt edit
  unfold Genealogy.attempt at attempted
  rcases g.editInPlace_cases edit with ⟨h, accepted, run⟩ | ⟨failure, -, run⟩
  · rw [accepted] at attempted
    rw [run]
    exact attempted
  · rw [run]
    exact reached

end Genealogy

/-! ### Evaluation and queries -/

namespace Run

/-- All that is asked is that the genealogy is one that edits reach. -/
def editing : Discipline where
  holds s := s.genealogy.Reachable
  change _ _ := True
  refl _ := trivial
  trans _ _ := trivial

def editingContract : Contract :=
  .ofChange (D := editing)
    (fun s t reached same => by
      have reached : s.genealogy.Reachable := reached
      rcases same with rfl | rfl
      · exact ⟨reached, trivial⟩
      · exact ⟨reached.tree, trivial⟩)
    fun s t reached same => by
      have reached : s.genealogy.Reachable := reached
      have still : t.genealogy.Reachable := same.genealogy ▸ reached
      exact ⟨still, trivial⟩

end Run

namespace Session
variable {s t : Session}

theorem exec_reachable (reached : s.genealogy.Reachable) (depth : Nat) (query : String) :
    (s.exec depth query).2.genealogy.Reachable := by
  have evaluated (task : Task) :=
    (Run.editingContract.eval (t := task.term) trivial depth (s.mapCache .discard) reached).1
  have executed := s.exec_executed depth query
  generalize s.exec depth query = result at executed
  cases executed with
  | refused failure _ => exact reached
  | failed task halt t _ run =>
    have still := run ▸ evaluated task
    exact still
  | answered task v t _ run =>
    have still := run ▸ evaluated task
    have same : (task.settle v t).genealogy = t.genealogy := by
      unfold Task.settle
      split <;> rfl
    exact (congrArg Genealogy.Reachable same).mpr still

/-! ### Edits through the session -/

/-- Edits the genealogy in place; if that succeeds, the cache is emptied. -/
def editInPlace (s : Session) (edit : Edit) : Except Failure Unit × Session :=
  match s.genealogy.editInPlace edit with
  | (.ok (), genealogy) => (.ok (), { s with genealogy }.expunge)
  | (.error failure, genealogy) => (.error failure, { s with genealogy })

/-- Editing in place puts the edited session in place of the old one, if there is one. -/
theorem editInPlace_eq (s : Session) (edit : Edit) :
    s.editInPlace edit = match s.edit (·.edited edit) with
      | .ok t => (.ok (), t)
      | .error failure => (.error failure, s) := by
  unfold editInPlace Session.edit
  rcases s.genealogy.editInPlace_cases edit with ⟨h, accepted, run⟩ | ⟨failure, refused, run⟩
  · simp only [accepted, run]
    rfl
  · simp only [refused, run]
    rfl

/-- Either way, the genealogy is the one that is edited directly. -/
theorem editInPlace_genealogy (s : Session) (edit : Edit) :
    (s.editInPlace edit).2.genealogy = (s.genealogy.editInPlace edit).2 := by
  unfold editInPlace
  rcases s.genealogy.editInPlace edit with ⟨failure | _, genealogy⟩ <;> rfl

theorem editInPlace_error {edit : Edit} {failure : Failure}
    (failed : (s.editInPlace edit).1 = .error failure) : (s.editInPlace edit).2 = s := by
  rw [editInPlace_eq] at failed ⊢
  cases h : s.edit (·.edited edit) with
  | ok t =>
    rw [h] at failed
    cases failed
  | error failure => rfl

/-! ### Whole lives of sessions -/

/-- The sessions that start with an accepted genealogy and live through edits, direct ones or
through the session, and through all that programs may do with a session. -/
inductive Lived : Session → Prop
  | start {people : List Profile} {bonds : List Bond} {genealogy : Genealogy}
      (dictionary : Dictionary) (today : Date) :
      Genealogy.make people bonds = .ok genealogy → Lived { genealogy, dictionary, today }
  | editDirectly (edit : Edit) {s : Session} :
      Lived s → Lived { s with genealogy := (s.genealogy.editInPlace edit).2 }
  | edit (edit : Edit) {s : Session} : Lived s → Lived (s.editInPlace edit).2
  | tree {s : Session} : Lived s → Lived s.tree.2
  | exec (depth : Nat) (query : String) {s : Session} : Lived s → Lived (s.exec depth query).2
  | eval (depth : Nat) (t : Term Value) {s : Session} :
      Lived s → Lived ((KinQuery.eval depth t).run s).2
  | apply (depth : Nat) (f : Function Value) (arguments : List Value) {s : Session} :
      Lived s → Lived ((KinQuery.apply depth f arguments).run s).2
  | register {h : HostFunction} {s t : Session} : s.register h = .ok t → Lived s → Lived t
  | setCaching (enabled : Bool) {s : Session} : Lived s → Lived (s.setCaching enabled)
  | expunge {s : Session} : Lived s → Lived s.expunge
  | putKinshipTerm (key name : String) {s : Session} :
      Lived s → Lived (s.putKinshipTerm key name).2

/-- Whatever a session lives through, edits alone could have led to its genealogy. -/
theorem Lived.reachable (lived : s.Lived) : s.genealogy.Reachable := by
  induction lived with
  | start dictionary today accepted => exact .make accepted
  | editDirectly edit _ ih => exact ih.editInPlace edit
  | @edit edit s _ ih => exact s.editInPlace_genealogy edit ▸ ih.editInPlace edit
  | tree _ ih => exact ih.tree
  | exec depth query _ ih => exact exec_reachable ih depth query
  | eval depth t _ ih => exact (Run.editingContract.eval (t := t) trivial depth _ ih).1
  | apply depth f arguments _ ih =>
    exact ((Run.editingContract.eval_and_apply depth).2 f arguments trivial
      (fun _ _ => trivial) _ ih).1
  | register registered _ ih =>
    unfold Session.register at registered
    split at registered <;> cases registered
    exact ih
  | setCaching enabled _ ih => exact ih
  | expunge _ ih => exact ih
  | @putKinshipTerm key name s _ ih =>
    exact (s.putKinshipTerm_sameWorld key name).genealogy ▸ ih

/-- Whatever a session lives through, its family tree is that of its persons and bonds, and an
edit that fails, directly or through the session, leaves no change behind. -/
theorem Lived.tree_current (lived : s.Lived) :
    (∀ tree, s.genealogy.tree? = some tree →
      tree = .build s.genealogy.people s.genealogy.bonds) ∧
    s.tree.1 = .build s.genealogy.people s.genealogy.bonds ∧
    (∀ edit failure, (s.genealogy.editInPlace edit).1 = .error failure →
      (s.genealogy.editInPlace edit).2 = s.genealogy) ∧
    ∀ edit failure, (s.editInPlace edit).1 = .error failure → (s.editInPlace edit).2 = s := by
  refine ⟨fun _ => lived.reachable.tree?, lived.reachable.tree_eq,
    fun edit failure failed => ?_, fun edit failure => editInPlace_error⟩
  rcases s.genealogy.editInPlace_cases edit with ⟨h, -, run⟩ | ⟨other, -, run⟩
  · rw [run] at failed
    cases failed
  · rw [run]

/-- A query was answered, the tree was asked for, and then a divorce fails. -/
theorem Lived.tree_current_divorce :
    ∃ s : Session, s.Lived ∧ s.cache.size = 1 ∧ s.genealogy.tree?.isSome ∧
      (s.editInPlace (.divorce 1 3)).1 = .error (.notMarried 1 3) ∧
      s.tree.1 = .build s.genealogy.people s.genealogy.bonds ∧
      (s.editInPlace (.divorce 1 3)).2 = s := by
  have read : readQuery "(list true)" = .ok (.compound [.atom "list", .atom "true"]) := by cbv
  let today : Date := ⟨2020, 6, 15, by decide, by decide, by decide, by decide⟩
  let start : Session := { genealogy := Genealogy.threesome, today }
  have lived : (start.exec 3 "(list true)").2.tree.2.Lived :=
    .tree (.exec 3 _ (.start _ _ Genealogy.threesome_accepted))
  have failed : ((start.exec 3 "(list true)").2.tree.2.editInPlace (.divorce 1 3)).1 =
      .error (.notMarried 1 3) := by
    rw [exec_of_read read]
    decide +kernel
  obtain ⟨-, current, -, unchanged⟩ := lived.tree_current
  refine ⟨_, lived, ?_, ?_, failed, current, unchanged _ _ failed⟩
  · rw [exec_of_read read]
    decide +kernel
  · rw [exec_of_read read]
    decide +kernel

end Session
end KinQuery
