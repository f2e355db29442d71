import KinQuery.Evaluation.Basic
import KinQuery.Proofs.Function.Answer

/-! What atoms stand for. It is read off the session; as with primitives, looking at an atom
changes nothing but that the family tree may be remembered. -/
namespace KinQuery

variable {s t : Session} {name : String}

theorem Value.arePlain_iff {items : List Value} :
    Value.arePlain items = true ↔ ∀ item ∈ items, item.isPlain = true := by
  induction items with
  | nil => simp [Value.arePlain]
  | cons item items ih => simp [Value.arePlain, ih]

/-- The value of a literal. -/
def literalAnswer (kind : Kind) (text : String) (tree : FamilyTree) (today : Date) :
    Except Failure Value :=
  if !kind.accepts text then .error (.notLiteral kind text)
  else match kind with
  | .boolean => .ok (.boolean (text = "true"))
  | .numeral =>
    match Numeral.read text with
    | .ok n => .ok (.numeral n)
    | .error fault => .error (.numeralOutOfRange text fault)
  | .string => .ok (.string (unquoted text))
  | .void => .ok .void
  | .date =>
    if text = "now" then .ok (.date today)
    else match Date.read? text with
      | some d => .ok (.date d)
      | none => .error (.notDate text)
  | .list => .ok .vacant
  | .person => .ok (People.everyone tree)
  | .function => .error (.notLiteral kind text)

theorem run_readLiteral (kind : Kind) (text : String) (s : Session) :
    ∃ t, s.SameButTree t ∧ (readLiteral kind text).run s =
      ((literalAnswer kind text s.tree.1 s.today).mapError .failed, t) := by
  unfold readLiteral literalAnswer
  by_cases accepted : kind.accepts text = true
  · simp only [accepted, Bool.not_true, Bool.false_eq_true, if_false]
    cases kind with
    | numeral =>
      cases Numeral.read text with
      | ok n => exact ⟨s, .inl rfl, rfl⟩
      | error fault => exact ⟨s, .inl rfl, rfl⟩
    | date =>
      by_cases now : text = "now"
      · simp only [now, if_true]
        exact ⟨s, .inl rfl, rfl⟩
      · simp only [now, if_false]
        cases Date.read? text with
        | some d => exact ⟨s, .inl rfl, rfl⟩
        | none => exact ⟨s, .inl rfl, rfl⟩
    | person => exact ⟨_, .inr rfl, rfl⟩
    | _ => exact ⟨s, .inl rfl, rfl⟩
  · simp only [accepted]
    exact ⟨s, .inl rfl, rfl⟩

theorem literalAnswer_isPlain {kind : Kind} {text : String} {tree : FamilyTree} {today : Date}
    {v : Value} (h : literalAnswer kind text tree today = .ok v) : v.isPlain = true := by
  unfold literalAnswer at h
  split at h
  · cases h
  · cases kind with
    | numeral =>
      dsimp only at h
      split at h <;> cases h
      rfl
    | date =>
      dsimp only at h
      split at h
      · cases h
        rfl
      · split at h <;> cases h
        rfl
    | person =>
      cases h
      rw [People.everyone, Value.isPlain, Value.arePlain_iff]
      simp [Value.isPlain]
    | list =>
      cases h
      rfl
    | function => cases h
    | _ =>
      cases h
      rfl

/-- What an atom stands for in a session. -/
def atomAnswer (s : Session) (name : String) : Except Failure Value :=
  match Kind.recognize name with
  | some kind => literalAnswer kind name s.tree.1 s.today
  | none =>
    match s.function? name with
    | some f => .ok (.function f)
    | none =>
      match s.definition? name with
      | some v => .ok v
      | none => .error (.unbound name)

theorem run_evalAtom (name : String) (s : Session) :
    ∃ t, s.SameButTree t ∧
      (evalAtom name).run s = ((atomAnswer s name).mapError .failed, t) := by
  unfold evalAtom Workings.evalAtom atomAnswer
  cases Kind.recognize name with
  | some kind => exact run_readLiteral kind name s
  | none =>
    refine ⟨s, .inl rfl, ?_⟩
    dsimp only
    rw [Run.run_bind_ok (Run.run_get s)]
    cases s.function? name with
    | some f => rfl
    | none =>
      cases s.definition? name with
      | some v => rfl
      | none => rfl

/-- A value that an atom stands for holds no function, is a function, or was defined. -/
theorem atomAnswer_ok {v : Value} (h : atomAnswer s name = .ok v) :
    v.isPlain = true ∨ (∃ f, s.function? name = some f ∧ v = .function f) ∨
      s.definition? name = some v := by
  unfold atomAnswer at h
  split at h
  · exact .inl (literalAnswer_isPlain h)
  · split at h
    · rename_i f hf
      cases h
      exact .inr (.inl ⟨f, hf, rfl⟩)
    · split at h
      · rename_i hv
        cases h
        exact .inr (.inr hv)
      · cases h

end KinQuery
