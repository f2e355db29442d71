import Mathlib.Logic.Function.Basic
import KinQuery.Proofs.Evaluation.LambdaParts
import KinQuery.Proofs.Evaluation.Stages
import KinQuery.Proofs.Session.Held
import KinQuery.Proofs.Term.Functions
import KinQuery.Proofs.Text.Decimal

/-! Which lambda bears which number.

A ledger says for each number which parameters and which body the lambda has that bears it. It
describes a session if it says so of every lambda that occurs there, and has no entry yet for the
numbers to come. Evaluation adds an entry for each lambda that it makes and changes none, so that
what the name of a function stood for once it always stands for. -/
namespace KinQuery

/-- The parameters and the body of the lambda that bears each number, if there is one. -/
abbrev Ledger := Nat → Option (List String × Term Value)

namespace Ledger
variable {L L' : Ledger} {f g : Function Value} {v : Value} {s t : Session} {query : String}

/-- Every entry of the first ledger is one of the second. -/
def Extends (L L' : Ledger) : Prop :=
  ∀ number entry, L number = some entry → L' number = some entry

/-- The name of the function says all about it. Nothing is said of registered functions. -/
def Records (L : Ledger) : Function Value → Prop
  | .primitive _ => True
  | .host _ => False
  | .lambda number parameters body => L number = some (parameters, body)

/-- All functions that occur in the value are recorded. -/
def Covers (L : Ledger) (v : Value) : Prop :=
  ∀ f ∈ v.allFunctions, L.Records f

/-- All functions in the session are recorded, under numbers that were given away. -/
structure Describes (L : Ledger) (s : Session) : Prop where
  given : ∀ number entry, L number = some entry → number ≤ s.lambdas
  values : s.All L.Covers

/-! ### Names -/

theorem head?_primitive_name (p : Primitive) : p.name.toList.head? ≠ some '$' := by
  cases p <;> decide +kernel

/-- The name of a lambda tells its number. -/
theorem number_of_name {number number' : Nat} {parameters parameters' : List String}
    {body body' : Term Value}
    (same : (Function.lambda number parameters body).name =
      (Function.lambda number' parameters' body').name) : number = number' := by
  have spelled : toString number = toString number' := by
    simpa [Function.name] using same
  refine Date.toDigits_injective ?_
  simpa [Nat.toString_eq_repr, Nat.toList_repr] using congrArg String.toList spelled

theorem Records.eq_of_name (hf : L.Records f) (hg : L.Records g) (same : f.name = g.name) :
    f = g := by
  have apart (p : Primitive) (number : Nat) (parameters : List String) (body : Term Value) :
      p.name ≠ (Function.lambda number parameters body).name := by
    intro h
    refine head?_primitive_name p ?_
    rw [h]
    simp [Function.name]
  cases f with
  | host h => exact hf.elim
  | primitive p =>
    cases g with
    | host h => exact hg.elim
    | primitive q => rw [Primitive.name_inj.1 same]
    | lambda number parameters body => exact absurd same (apart p number parameters body)
  | lambda number parameters body =>
    cases g with
    | host h => exact hg.elim
    | primitive q => exact absurd same.symm (apart q number parameters body)
    | lambda number' parameters' body' =>
      obtain rfl := number_of_name same
      have entry : some (parameters, body) = some (parameters', body') := hf.symm.trans hg
      cases entry
      rfl

/-! ### Growth -/

theorem Extends.refl (L : Ledger) : L.Extends L :=
  fun _ _ entry => entry

theorem Extends.trans {L'' : Ledger} (first : L.Extends L') (second : L'.Extends L'') :
    L.Extends L'' :=
  fun number entry h => second number entry (first number entry h)

theorem Extends.records (extends' : L.Extends L') (h : L.Records f) : L'.Records f := by
  cases f with
  | primitive p => trivial
  | host host => exact h
  | lambda number parameters body => exact extends' number _ h

theorem Extends.covers (extends' : L.Extends L') (h : L.Covers v) : L'.Covers v :=
  fun f hf => extends'.records (h f hf)

/-- What the next lambda is made of is entered under its number. -/
def enter (L : Ledger) (number : Nat) (entry : List String × Term Value) : Ledger :=
  Function.update L number (some entry)

theorem extends_enter {number : Nat} (free : L number = none) (entry : List String × Term Value) :
    L.Extends (L.enter number entry) := by
  intro other old h
  have apart : other ≠ number := by
    rintro rfl
    rw [free] at h
    cases h
  rw [enter, Function.update_of_ne apart]
  exact h

/-! ### Sessions -/

theorem isTransparent_covers (L : Ledger) : Value.IsTransparent L.Covers :=
  Value.isTransparent_allFunctions L.Records

theorem covers_primitive (p : Primitive) : L.Covers (.function (.primitive p)) := by
  simp [Covers, Value.allFunctions, Records]

theorem not_covers_host (h : HostFunction) : ¬L.Covers (.function (.host h)) := by
  simp [Covers, Value.allFunctions, Records]

namespace Describes

theorem free (describes : L.Describes s) : L (s.lambdas + 1) = none := by
  cases h : L (s.lambdas + 1) with
  | none => rfl
  | some entry =>
    have := describes.given _ entry h
    omega

theorem of_values (describes : L.Describes s) (lambdas : t.lambdas = s.lambdas)
    (values : t.All L.Covers) : L.Describes t :=
  ⟨lambdas ▸ describes.given, values⟩

/-- A session with one lambda more, which was entered. -/
theorem enter (describes : L.Describes s) (entry : List String × Term Value) :
    (L.enter (s.lambdas + 1) entry).Describes { s with lambdas := s.lambdas + 1 } := by
  have grown := extends_enter describes.free entry
  refine ⟨fun number other h => ?_, ?_⟩
  · by_cases same : number = s.lambdas + 1
    · exact Nat.le_of_eq same
    · rw [Ledger.enter, Function.update_of_ne same] at h
      exact Nat.le_succ_of_le (describes.given number other h)
  · obtain ⟨hosts, definitions, entries, pending, calls⟩ := describes.values
    exact ⟨fun h hh => grown.covers (hosts h hh), fun d hd => grown.covers (definitions d hd),
      fun e he => grown.covers (entries e he), fun e he => grown.covers (pending e he),
      fun c hc v hv => grown.covers (calls c hc v hv)⟩

end Describes

/-! ### Evaluation -/

/-- The stages of evaluation are the ledgers, which grow. -/
def stages : Run.Stages Ledger where
  later := Extends
  refl := .refl
  trans := .trans
  holds := Describes

theorem still_kept (s t : Session) (hs : (stages.still L).holds s) (same : s.SameButTree t) :
    (stages.still L).holds t ∧ (stages.still L).change s t := by
  have lambdas : t.lambdas = s.lambdas := by
    rcases same with rfl | rfl
    · rfl
    · rfl
  have describes : L.Describes s := hs
  exact ⟨describes.of_values lambdas (same.all describes.values), trivial⟩

theorem evalLambda_together {parts : List (Term Value)}
    (good : ∀ f ∈ (Term.compound parts).allFunctions, L.Records f) :
    stages.Together L Covers (evalLambda parts) (evalLambda parts) := by
  have inBody (known : List String × Term Value) (h : lambdaParts parts = .ok known) :
      ∀ f ∈ known.2.allFunctions, L.Records f := fun f hf =>
    good f (Term.mem_allFunctions_compound.2 ⟨_, mem_of_lambdaParts h, hf⟩)
  refine Run.Stages.Together.bind
    (Q := fun L' known => ∀ f ∈ known.2.allFunctions, Records L' f) (.ofExcept inBody)
    fun L' known _ recorded => .modifyGet fun s describes => ?_
  -- the body was known before the lambda was made, so nothing in it bears the new number
  have grown := extends_enter describes.free known
  refine ⟨L'.enter (s.lambdas + 1) known, grown, describes.enter known, fun f hf => ?_⟩
  rcases Value.mem_allFunctions_lambda.1 hf with rfl | within
  · exact Function.update_self _ _ _
  · exact grown.records (recorded f within)

def contract : Run.StagedContract Ledger where
  toStages := stages
  term L t := ∀ f ∈ t.allFunctions, L.Records f
  value := Covers
  term_later grown h f hf := Extends.records grown (h f hf)
  value_later := Extends.covers
  value_of_term L v h f hf := h f hf
  term_of_part L parts h part hpart f hf := h f (Term.mem_allFunctions_compound.2 ⟨part, hpart, hf⟩)
  list_iff L := L.isTransparent_covers.list
  atom L name _ := .of_still <| Primitive.triple_of_sameButTree still_kept fun s describes => by
    obtain ⟨t, same, run⟩ := run_evalAtom name s
    exact ⟨t, _, same, run, fun v hv =>
      describes.values.atomAnswer L.isTransparent_covers (fun p _ => covers_primitive p) hv⟩
  definition L s describes name v h := describes.values.definitions _ (Session.definition?_mem h)
  function L s describes name f _ h := describes.values.function (fun p _ => covers_primitive p) h
  call L p apply arguments hf hm _ good := .of_still <|
    Primitive.triple_call apply hf hm (L.isTransparent_covers.plain rfl) still_kept
      (fun _ _ _ hv => L.isTransparent_covers.answer good hv)
      fun _ s describes key name _ => by
        have lambdas : (s.putKinshipTerm key name).2.lambdas = s.lambdas := by
          rw [Session.putKinshipTerm_eq]
        exact ⟨describes.of_values lambdas (describes.values.putKinshipTerm key name), trivial⟩
  host L h arguments hh _ := absurd hh (not_covers_host h)
  cached L s describes key v h := describes.values.cached h
  lambda L parts good := evalLambda_together good
  remember L key v hv := .of_still <| .modify fun s describes => by
    refine ⟨?_, trivial⟩
    by_cases enabled : s.cache.enabled = true
    · rw [if_pos enabled]
      exact describes.of_values rfl (describes.values.put hv key)
    · rw [if_neg enabled]
      exact describes
  body L number parameters body arguments hf good f within := by
    rcases Term.mem_allFunctions_substitute within with old | ⟨name, v, hv, new⟩
    · exact hf f (Value.mem_allFunctions_lambda.2 (.inr old))
    · exact good v (List.of_mem_zip (Bindings.mem_of_ofList hv)).2 f new

end Ledger
end KinQuery
