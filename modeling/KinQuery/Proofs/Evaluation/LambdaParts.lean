import KinQuery.Evaluation.Basic
import KinQuery.Proofs.Evaluation.Literal

/-! The parameters and the body of lambda terms. -/
namespace KinQuery

variable {parts declared : List (Term Value)} {seen names : List String}
  {known : List String × Term Value} {failure : Failure}

/-- Parameters are atoms, and their names are proper. -/
theorem declareParameters_eq_ok (h : declareParameters seen declared = .ok names) :
    declared = names.map .atom ∧ ∀ name ∈ names, IsProper name := by
  induction declared generalizing seen names with
  | nil =>
    cases h
    exact ⟨rfl, by simp⟩
  | cons parameter declared ih =>
    cases parameter with
    | atom name =>
      rw [declareParameters] at h
      split at h
      · rename_i valid
        cases hrest : declareParameters (name :: seen) declared with
        | error failure =>
          rw [hrest] at h
          cases h
        | ok rest =>
          rw [hrest] at h
          cases h
          obtain ⟨rfl, proper⟩ := ih hrest
          simp only [Bool.and_eq_true, Bool.not_eq_true'] at valid
          exact ⟨rfl, List.forall_mem_cons.2 ⟨⟨valid.1.1, valid.1.2⟩, proper⟩⟩
      · cases h
    | compound parts => cases h
    | value v => cases h

theorem Term.declared_atoms (names : List String) :
    (Term.compound (V := Value) (names.map .atom)).declared = names := by
  rw [declared, List.filterMap_map]
  exact List.filterMap_some

theorem lambdaParts_eq_ok (h : lambdaParts parts = .ok known) :
    (∃ leader, parts = [leader, .compound (known.1.map .atom), known.2]) ∧
      ∀ name ∈ known.1, IsProper name := by
  unfold lambdaParts at h
  split at h
  · rename_i leader declared body
    cases hnames : declareParameters [] declared with
    | error failure =>
      rw [hnames] at h
      cases h
    | ok names =>
      rw [hnames] at h
      cases h
      obtain ⟨rfl, proper⟩ := declareParameters_eq_ok hnames
      exact ⟨⟨leader, rfl⟩, proper⟩
  · cases h
  · cases h

/-- The body of a lambda is a part of its term. -/
theorem mem_of_lambdaParts (h : lambdaParts parts = .ok known) : known.2 ∈ parts := by
  obtain ⟨⟨leader, rfl⟩, -⟩ := lambdaParts_eq_ok h
  simp

/-! ### Refused lambda terms -/

theorem failureClass_of_declareParameters (h : declareParameters seen declared = .error failure) :
    failure.failureClass = .malformedTerm := by
  induction declared generalizing seen with
  | nil => cases h
  | cons parameter declared ih =>
    cases parameter with
    | atom name =>
      rw [declareParameters] at h
      split at h
      · cases hrest : declareParameters (name :: seen) declared with
        | error other =>
          rw [hrest] at h
          cases h
          exact ih hrest
        | ok names =>
          rw [hrest] at h
          cases h
      · cases h
        rfl
    | compound _ =>
      cases h
      rfl
    | value _ =>
      cases h
      rfl

theorem failureClass_of_lambdaParts (h : lambdaParts parts = .error failure) :
    failure.failureClass = .malformedTerm := by
  unfold lambdaParts at h
  split at h
  · rename_i leader declared body
    cases hnames : declareParameters [] declared with
    | error other =>
      rw [hnames] at h
      cases h
      exact failureClass_of_declareParameters hnames
    | ok names =>
      rw [hnames] at h
      cases h
  · cases h
    rfl
  · cases h
    rfl

/-- No body makes a function of a lambda term with these parameters. -/
def Term.IsRefused (parameters : Term Value) : Prop :=
  ∀ body known, lambdaParts [.atom "lambda", parameters, body] ≠ .ok known

/-- Parameters that are not refused are proper names. -/
theorem Term.isRefused_or (parameters : Term Value) :
    parameters.IsRefused ∨ ∃ names : List String, parameters = .compound (names.map .atom) ∧
      ∀ name ∈ names, IsProper name := by
  by_cases refused : parameters.IsRefused
  · exact .inl refused
  · simp only [IsRefused, not_forall, not_not] at refused
    obtain ⟨body, known, accepted⟩ := refused
    obtain ⟨⟨leader, same⟩, proper⟩ := lambdaParts_eq_ok accepted
    simp only [List.cons.injEq] at same
    exact .inr ⟨known.1, same.2.1, proper⟩

end KinQuery
