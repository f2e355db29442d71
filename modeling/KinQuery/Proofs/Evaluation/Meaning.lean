import KinQuery.Proofs.Session.Plain

/-! What terms without lambdas mean in a session.

The meaning of a term is made of the meanings of its parts, without a cache and without a
bound. If a term has a value, so does every term that is the same once the values in both are
written out, and it has it in every session with more definitions. -/
namespace KinQuery

open List (Forall₂)

/-! ### Answers of functions -/

/-- What functions answer to plain arguments, in every session of a world. -/
structure Applies (w : World) (applied : Function Value → List Value → Except Failure Value) :
    Prop where
  plain : ∀ f arguments, f.IsPlainIn w → (∀ v ∈ arguments, v.IsPlainIn w) →
    Gives (Value.IsPlainIn w) (applied f arguments)
  settles : ∀ f arguments, f.IsPlainIn w → (∀ v ∈ arguments, v.IsPlainIn w) →
    ∀ depth, Run.Settles w (apply (depth + 3) f arguments) (applied f arguments)

theorem exists_applies {w : World} (hw : w.IsPlain) : ∃ applied, Applies w applied := by
  have each (f : Function Value) (arguments : List Value) : ∃ r : Except Failure Value,
      f.IsPlainIn w → (∀ v ∈ arguments, v.IsPlainIn w) →
        Gives (Value.IsPlainIn w) r ∧
          ∀ depth, Run.Settles w (apply (depth + 3) f arguments) r := by
    by_cases h : f.IsPlainIn w ∧ ∀ v ∈ arguments, v.IsPlainIn w
    · obtain ⟨r, hr⟩ := steady_apply hw h.1 h.2
      exact ⟨r, fun _ _ => hr⟩
    · exact ⟨.error .emptyApplication, fun hf good => absurd ⟨hf, good⟩ h⟩
  choose applied known using each
  exact ⟨applied, fun f arguments hf good => (known f arguments hf good).1,
    fun f arguments hf good => (known f arguments hf good).2⟩

/-! ### Meanings -/

section Meanings
variable (c : Session) (applied : Function Value → List Value → Except Failure Value)

/-- The function that a head stands for. -/
def headFunction (head : Except Failure Value) : Except Failure (Function Value) := do
  match ← head with
  | .function f => .ok f
  | v => .error (.notFunction v.term)

/-- The answer of a function to arguments. -/
def answerOf (head : Except Failure Value) (arguments : List (Except Failure Value)) :
    Except Failure Value := do
  let f ← headFunction head
  f.checkArity arguments.length
  let values ← arguments.mapM id
  applied f values

/-- The branch that a condition picks. -/
def branchOf : List (Except Failure Value) → Except Failure Value
  | [_, condition, yes, no] => do
    let v ← condition
    let b ← v.asBoolean SpecialForm.conditional.word
    if b then yes else no
  | meanings => .error (.wrongBranchCount (meanings.length - 1))

/-- What a compound means, from what its parts mean. There is no meaning of lambdas. -/
def combine (parts : List (Term Value)) (meanings : List (Except Failure Value)) :
    Except Failure Value :=
  match (Term.compound parts).specialForm? with
  | some .lambda => .error (.malformedLambda (Term.compound parts).display)
  | some .conditional => branchOf meanings
  | some .define => .error (.nestedDefine (Term.compound parts).display)
  | none =>
    match meanings with
    | [] => .error .emptyApplication
    | head :: arguments => answerOf applied head arguments

mutual

def Term.meaning : Term Value → Except Failure Value
  | .atom name => atomAnswer c name
  | .value v => .ok v
  | .compound parts => combine applied parts (Term.meanings parts)

def Term.meanings : List (Term Value) → List (Except Failure Value)
  | [] => []
  | part :: parts => Term.meaning part :: Term.meanings parts

end

theorem Term.meanings_eq_map (parts : List (Term Value)) :
    Term.meanings c applied parts = parts.map (Term.meaning c applied) := by
  induction parts with
  | nil => simp [Term.meanings]
  | cons part parts ih => simp [Term.meanings, ih]

end Meanings

variable {c c' : Session} {applied : Function Value → List Value → Except Failure Value}
  {v : Value} {t u : Term Value}

theorem Term.meaning_compound (parts : List (Term Value)) :
    Term.meaning c applied (.compound parts) =
      combine applied parts (parts.map (Term.meaning c applied)) := by
  rw [Term.meaning, Term.meanings_eq_map]

theorem combine_application {parts : List (Term Value)}
    (h : (Term.compound parts).specialForm? = none) (head : Except Failure Value)
    (arguments : List (Except Failure Value)) :
    combine applied parts (head :: arguments) = answerOf applied head arguments := by
  unfold combine
  rw [h]

/-! ### Plain terms mean plain values -/

theorem headFunction_plain {w : World} {head : Except Failure Value}
    (h : Gives (Value.IsPlainIn w) head) : Gives (Function.IsPlainIn w) (headFunction head) := by
  refine h.bind fun v hv => ?_
  cases v with
  | function f => exact .ok hv
  | _ => exact .error _

theorem combine_plain {w : World} (applies : Applies w applied) {parts : List (Term Value)}
    {meanings : List (Except Failure Value)}
    (each : ∀ r ∈ meanings, Gives (Value.IsPlainIn w) r) :
    Gives (Value.IsPlainIn w) (combine applied parts meanings) := by
  unfold combine
  split
  · exact .error _
  · unfold branchOf
    split
    · rename_i condition yes no
      refine (Gives.trivial _).bind fun v _ => (Gives.trivial _).bind fun b _ => ?_
      split
      · exact each yes (by simp)
      · exact each no (by simp)
    · exact .error _
  · exact .error _
  · split
    · exact .error _
    · rename_i head arguments
      obtain ⟨first, rest⟩ := List.forall_mem_cons.1 each
      refine (headFunction_plain first).bind fun f hf => ?_
      refine (Gives.trivial _).bind fun _ _ => ?_
      refine (Gives.mapM rest).bind fun values hvalues => ?_
      exact applies.plain f values hf hvalues

theorem Term.meaning_plain (hc : c.IsSober) (applies : Applies c.world applied)
    (plain : t.IsPlainFor c) : Gives (Value.IsPlainIn c.world) (t.meaning c applied) := by
  induction t using Term.induction with
  | atom name =>
    rw [meaning]
    exact hc.atomAnswer_plain (Term.obeys_atom.1 plain)
  | value v =>
    rw [meaning]
    exact .ok (Term.obeys_value.1 plain.plainIn)
  | compound parts ih =>
    rw [meaning_compound]
    refine combine_plain applies fun r hr => ?_
    obtain ⟨part, hpart, rfl⟩ := List.mem_map.1 hr
    exact ih part hpart (Term.obeys_compound.1 plain part hpart)

end KinQuery
