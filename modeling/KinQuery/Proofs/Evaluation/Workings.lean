import KinQuery.Evaluation.Basic
import KinQuery.Proofs.Evaluation.Task

/-! Evaluation with other workings in place of its own.

Evaluation leaves to its workings what functions do when they are called and how literals are
read. If other workings differ from its own only where something does not hold, and this always
holds where evaluation gets to them, then nothing shows of the difference. -/
namespace KinQuery

namespace Workings

/-! ### Workings that agree -/

/-- The workings are those of evaluation as it is, for calls with as many arguments as the
function takes and for literals, in the sessions and for the arguments of which `P` holds. -/
structure AgreesOn (W : Workings) (P : Session → List Value → Prop) : Prop where
  call : ∀ apply p arguments s, P s arguments → p.arity.accepts arguments.length = true →
    (W.call apply p arguments).run s = (p.call apply arguments).run s
  literal : ∀ kind text s, P s [] → kind.accepts text = true →
    (W.literal kind text).run s = (readLiteral kind text).run s
  host : ∀ eval apply h arguments s, P s arguments →
    (W.host eval apply h arguments).run s = (h.call arguments).run s := by
      exact fun _ _ _ _ _ _ => rfl

/-- The workings are those of evaluation as it is, for calls with as many arguments as the
function takes and for literals, in the sessions of which `P` holds. -/
structure Agrees (W : Workings) (P : Session → Prop) : Prop where
  call : ∀ apply p arguments s, P s → p.arity.accepts arguments.length = true →
    (W.call apply p arguments).run s = (p.call apply arguments).run s
  literal : ∀ kind text s, P s → kind.accepts text = true →
    (W.literal kind text).run s = (readLiteral kind text).run s
  host : ∀ eval apply h arguments s, P s →
    (W.host eval apply h arguments).run s = (h.call arguments).run s := by
      exact fun _ _ _ _ _ _ => rfl

variable {W : Workings} {P Q : Session → Prop} {R R' : Session → List Value → Prop}

theorem Agrees.mono (agrees : W.Agrees P) (weaker : ∀ s, Q s → P s) : W.Agrees Q where
  call apply p arguments s hs := agrees.call apply p arguments s (weaker s hs)
  literal kind text s hs := agrees.literal kind text s (weaker s hs)
  host eval apply h arguments s hs := agrees.host eval apply h arguments s (weaker s hs)

theorem AgreesOn.mono (agrees : W.AgreesOn R)
    (weaker : ∀ s arguments, R' s arguments → R s arguments) : W.AgreesOn R' where
  call apply p arguments s hs := agrees.call apply p arguments s (weaker s arguments hs)
  literal kind text s hs := agrees.literal kind text s (weaker s [] hs)
  host eval apply h arguments s hs := agrees.host eval apply h arguments s (weaker s arguments hs)

theorem Agrees.on (agrees : W.Agrees P) : W.AgreesOn fun s _ => P s :=
  ⟨agrees.call, agrees.literal, agrees.host⟩

theorem own_agreesOn : own.AgreesOn R where
  call _ _ _ _ _ _ := rfl
  literal _ _ _ _ _ := rfl

theorem run_evalAtom {s : Session} (agrees : W.AgreesOn R) (hs : R s []) (name : String) :
    (W.evalAtom name).run s = (KinQuery.evalAtom name).run s := by
  unfold KinQuery.evalAtom Workings.evalAtom
  cases recognized : Kind.recognize name with
  | none => rfl
  | some kind => exact agrees.literal kind name s hs (Kind.accepts_of_recognize recognized)

/-- If the term of a query is evaluated as with evaluation's own workings, so is the query. -/
theorem exec_eq {depth : Nat} {query : String} {s : Session}
    (same : ∀ task, s.task query = .ok task →
      (W.eval depth task.term).run (s.mapCache .discard) =
        (KinQuery.eval depth task.term).run (s.mapCache .discard)) :
    W.exec depth query s = s.exec depth query := by
  rw [Workings.exec, Session.exec, Session.execBy_eq, Session.execBy_eq]
  congr 1
  cases asked : s.task query with
  | error failure => rfl
  | ok task => simp only [Session.performBy, Task.runBy, same task asked]

end Workings
end KinQuery
