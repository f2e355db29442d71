import Mathlib.Algebra.Group.Int.Defs
import Mathlib.Algebra.Group.Nat.Defs
import KinQuery.Proofs.Evaluation.Triple

/-! Runs whose steps may be out of range.

Positions, slices and machine integers have ranges. A checked run names every step that has
one, and ends without any outcome, not even a failure, where a step is out of its range. It
follows a run of the session if it goes through all its steps, and has the outcome of that
run. -/
namespace KinQuery

/-! ### Steps with a range -/

namespace Range
variable {α : Type}

/-- The items from a position on, which may be the end but not lie beyond it. -/
def itemsFrom (items : List α) (start : Nat) : Option (List α) :=
  if start ≤ items.length then some (items.drop start) else none

/-- The items before a position. -/
def itemsBefore (items : List α) (stop : Nat) : Option (List α) :=
  if stop ≤ items.length then some (items.take stop) else none

/-- The items between two positions, both of them included. -/
def itemsBetween (items : List α) (first last : Nat) : Option (List α) :=
  if first ≤ last + 1 ∧ last < items.length then
    some ((items.drop first).take (last + 1 - first))
  else none

/-- A signed integer of a number of bits. -/
def signed (bits : Nat) (n : Int) : Option Int :=
  if -2 ^ (bits - 1) ≤ n ∧ n < 2 ^ (bits - 1) then some n else none

/-- The sum of two lengths or positions. -/
def plus (m n : Nat) : Option Nat :=
  if m + n < 2 ^ 64 then some (m + n) else none

/-- The difference of two lengths or positions. -/
def minus (m n : Nat) : Option Nat :=
  if n ≤ m then some (m - n) else none

/-! A conversion has no range: what does not fit is cut down to what does. -/

/-- A length as a signed integer of 64 bits. -/
def toSigned (n : Nat) : Int :=
  (n : Int).bmod (2 ^ 64)

/-- A signed integer of 64 bits as a position. -/
def toPosition (n : Int) : Nat :=
  (n % 2 ^ 64).toNat

theorem itemsFrom_eq {items : List α} {start : Nat} (within : start ≤ items.length) :
    itemsFrom items start = some (items.drop start) :=
  if_pos within

theorem itemsBefore_eq {items : List α} {stop : Nat} (within : stop ≤ items.length) :
    itemsBefore items stop = some (items.take stop) :=
  if_pos within

theorem itemsBetween_eq {items : List α} {first last : Nat} (ordered : first ≤ last)
    (within : last < items.length) :
    itemsBetween items first last = some ((items.drop first).take (last + 1 - first)) :=
  if_pos ⟨Nat.le_succ_of_le ordered, within⟩

theorem plus_eq {m n : Nat} (fits : m + n < 2 ^ 64) : plus m n = some (m + n) := by
  rw [plus, if_pos fits]

theorem minus_eq {m n : Nat} (le : n ≤ m) : minus m n = some (m - n) :=
  if_pos le

theorem signed_eq {bits : Nat} {n : Int} (lower : -2 ^ (bits - 1) ≤ n)
    (upper : n < 2 ^ (bits - 1)) : signed bits n = some n :=
  if_pos ⟨lower, upper⟩

theorem toSigned_eq {n : Nat} (fits : n < 2 ^ 63) : toSigned n = n := by
  refine Int.bmod_eq_of_le ?_ ?_ <;> omega

theorem toPosition_eq {n : Int} (lower : 0 ≤ n) (upper : n < 2 ^ 63) :
    toPosition n = n.toNat := by
  rw [toPosition, Int.emod_eq_of_lt lower (by omega)]

end Range

/-! ### Checked runs -/

abbrev Checked (α : Type) := ExceptT Halt (StateT Session Option) α

namespace Checked
variable {α β : Type}

/-- A step that may be out of range. -/
def step (a : Option α) : Checked α :=
  ExceptT.mk fun s => a.map fun a => (.ok a, s)

/-- A run none of whose steps has a range. -/
def ofRun (m : Run α) : Checked α :=
  ExceptT.mk fun s => some (m.run s)

def ofExcept (r : Except Failure α) : Checked α :=
  ofRun (.ofExcept r)

/-- A checked run goes through. If `exact` holds, its outcome is that of `m`. -/
def Follows (exact : Prop) (c : Checked α) (m : Run α) (s : Session) : Prop :=
  ∃ outcome, c.run s = some outcome ∧ (exact → outcome = m.run s)

theorem run_bind (c : Checked α) (f : α → Checked β) (s : Session) :
    (c >>= f).run s = (c.run s).bind fun outcome =>
      match outcome with
      | (.ok a, t) => (f a).run t
      | (.error halt, t) => some (.error halt, t) := by
  change (c.run s).bind (fun outcome => ExceptT.bindCont f outcome.1 outcome.2) = _
  congr 1
  funext outcome
  rcases outcome with ⟨_ | a, t⟩ <;> rfl

namespace Follows
variable {exact : Prop} {s : Session}

theorem refl (m : Run α) : Follows exact (ofRun m) m s :=
  ⟨m.run s, rfl, fun _ => rfl⟩

theorem pure {a b : α} (same : exact → a = b) :
    Follows exact (Pure.pure a) (Pure.pure b) s :=
  ⟨(.ok a, s), rfl, fun h => by rw [same h]; rfl⟩

theorem one_step {o : Option α} {a : α} (within : o = some a) :
    Follows exact (step o) (Pure.pure a) s :=
  ⟨(.ok a, s), by rw [within]; rfl, fun _ => rfl⟩

theorem step_bind {o : Option α} {a : α} {f : α → Checked β} {m : Run β} (within : o = some a)
    (next : Follows exact (f a) m s) : Follows exact (step o >>= f) m s := by
  obtain ⟨outcome, run, same⟩ := next
  refine ⟨outcome, ?_, same⟩
  rw [run_bind, within]
  exact run

theorem bind {c : Checked α} {m : Run α} {f : α → Checked β} {g : α → Run β}
    (first : c.run s = some (m.run s))
    (next : ∀ a t, m.run s = (.ok a, t) → Follows exact (f a) (g a) t) :
    Follows exact (c >>= f) (m >>= g) s := by
  rcases hm : m.run s with ⟨halt | a, t⟩
  · exact ⟨(.error halt, t), by rw [run_bind, first, hm]; rfl,
      fun _ => (Run.run_bind_error hm).symm⟩
  · obtain ⟨outcome, run, same⟩ := next a t hm
    refine ⟨outcome, ?_, fun h => (same h).trans (Run.run_bind_ok hm).symm⟩
    rw [run_bind, first, hm]
    exact run

theorem ofExcept_bind {r : Except Failure α} {f : α → Checked β} {g : α → Except Failure β}
    (next : ∀ a, r = .ok a → Follows exact (f a) (.ofExcept (g a)) s) :
    Follows exact (ofExcept r >>= f) (.ofExcept (r >>= g)) s := by
  cases r with
  | error failure => exact ⟨(.error (.failed failure), s), rfl, fun _ => rfl⟩
  | ok a => exact next a rfl

end Follows
end Checked
end KinQuery
