import KinQuery.Evaluation.Basic

/-! What a computation over a session keeps.

A discipline says what holds of a session throughout and how the session may change. A triple
says that a computation keeps to a discipline, whether it ends with a value or not, and what
is known of its value. -/
namespace KinQuery.Run

variable {α β : Type}

/-! ### Runs of the basic computations -/

@[simp] theorem run_pure (a : α) (s : Session) : (pure a : Run α).run s = (.ok a, s) := rfl

@[simp] theorem run_get (s : Session) : (get : Run Session).run s = (.ok s, s) := rfl

@[simp] theorem run_modify (f : Session → Session) (s : Session) :
    (modify f : Run Unit).run s = (.ok (), f s) := rfl

@[simp] theorem run_modifyGet (f : Session → α × Session) (s : Session) :
    (modifyGet f : Run α).run s = (.ok (f s).1, (f s).2) := rfl

@[simp] theorem ofExcept_ok (a : α) : ofExcept (.ok a) = (pure a : Run α) := rfl

theorem run_ofExcept (r : Except Failure α) (s : Session) :
    (ofExcept r).run s = (r.mapError .failed, s) := by
  cases r <;> rfl

@[simp] theorem mapError_eq_ok {r : Except Failure α} {a : α} :
    r.mapError Halt.failed = .ok a ↔ r = .ok a := by
  cases r with
  | error failure => exact ⟨(nomatch ·), (nomatch ·)⟩
  | ok b => exact ⟨fun h => congrArg _ (Except.ok.inj h), fun h => congrArg _ (Except.ok.inj h)⟩

theorem run_bind (m : Run α) (f : α → Run β) (s : Session) :
    (m >>= f).run s = match m.run s with
      | (.ok a, t) => (f a).run t
      | (.error halt, t) => (.error halt, t) := by
  change (ExceptT.bindCont f (m.run s).1) (m.run s).2 = _
  rcases m.run s with ⟨_ | a, t⟩ <;> rfl

theorem run_bind_ok {m : Run α} {f : α → Run β} {s t : Session} {a : α}
    (h : m.run s = (.ok a, t)) : (m >>= f).run s = (f a).run t := by
  rw [run_bind, h]

theorem run_bind_error {m : Run α} {f : α → Run β} {s t : Session} {halt : Halt}
    (h : m.run s = (.error halt, t)) : (m >>= f).run s = (.error halt, t) := by
  rw [run_bind, h]

/-! ### Runs of applications -/

section Applications
variable {eval : Term Value → Run Value} {apply : Function Value → List Value → Run Value}
  {head : Term Value} {arguments : List (Term Value)} {s : Session}

theorem run_evalApplication_uncached (off : s.cache.enabled = false) :
    (evalApplication eval apply head arguments).run s =
      (applyTo eval apply head arguments).run s := by
  rw [evalApplication, run_bind_ok (run_get s), off]
  rfl

theorem run_evalApplication_kept {v : Value} (enabled : s.cache.enabled = true)
    (found : s.cache.get? (Term.compound (head :: arguments)).key = some v) :
    (evalApplication eval apply head arguments).run s = (.ok v, s) := by
  rw [evalApplication, run_bind_ok (run_get s), if_pos enabled]
  dsimp only
  rw [found]
  rfl

theorem run_evalApplication_new (enabled : s.cache.enabled = true)
    (new : s.cache.get? (Term.compound (head :: arguments)).key = none) :
    (evalApplication eval apply head arguments).run s = (do
      let v ← applyTo eval apply head arguments
      remember (Term.compound (head :: arguments)).key v
      return v : Run Value).run s := by
  rw [evalApplication, run_bind_ok (run_get s), if_pos enabled]
  dsimp only
  rw [new]

end Applications

/-! ### Disciplines and triples -/

structure Discipline where
  holds : Session → Prop
  change : Session → Session → Prop
  refl : ∀ s, change s s
  trans : ∀ {s t u}, change s t → change t u → change s u

def Triple (D : Discipline) (Q : α → Prop) (m : Run α) : Prop :=
  ∀ s, D.holds s → D.holds (m.run s).2 ∧ D.change s (m.run s).2 ∧
    ∀ a, (m.run s).1 = .ok a → Q a

namespace Triple
variable {D : Discipline} {Q : α → Prop}

theorem pure {a : α} (ha : Q a) : Triple D Q (pure a) :=
  fun s hs => ⟨hs, D.refl s, fun b hb => by cases hb; exact ha⟩

theorem throw (halt : Halt) : Triple D Q (throw halt) :=
  fun s hs => ⟨hs, D.refl s, fun b hb => by cases hb⟩

theorem fail (failure : Failure) : Triple D Q (fail failure) :=
  throw _

theorem ofExcept {r : Except Failure α} (known : ∀ a, r = .ok a → Q a) :
    Triple D Q (ofExcept r) := by
  cases r with
  | ok a => exact pure (known a rfl)
  | error failure => exact fail failure

theorem bind {Q' : β → Prop} {m : Run α} {f : α → Run β} (first : Triple D Q m)
    (next : ∀ a, Q a → Triple D Q' (f a)) : Triple D Q' (m >>= f) := by
  intro s hs
  obtain ⟨holds, change, value⟩ := first s hs
  rcases hm : m.run s with ⟨_ | a, t⟩
  · rw [run_bind_error hm]
    rw [hm] at holds change
    exact ⟨holds, change, fun b hb => by cases hb⟩
  · rw [run_bind_ok hm]
    rw [hm] at holds change value
    obtain ⟨holds', change', value'⟩ := next a (value a rfl) t holds
    exact ⟨holds', D.trans change change', value'⟩

theorem modify {f : Session → Session}
    (step : ∀ s, D.holds s → D.holds (f s) ∧ D.change s (f s)) :
    Triple D (fun _ => True) (modify f) :=
  fun s hs => ⟨(step s hs).1, (step s hs).2, fun _ _ => trivial⟩

theorem modifyGet {f : Session → α × Session}
    (step : ∀ s, D.holds s → D.holds (f s).2 ∧ D.change s (f s).2 ∧ Q (f s).1) :
    Triple D Q (modifyGet f) :=
  fun s hs => ⟨(step s hs).1, (step s hs).2.1, fun a ha => by cases ha; exact (step s hs).2.2⟩

end Triple

end KinQuery.Run
