import KinQuery.Calendar
import Mathlib.Logic.Function.Iterate

/-! Days beyond the end of a month, counted one by one into the next. -/
namespace KinQuery

theorem daysInMonth_bounds (year : Int) (month : Nat) :
    28 ≤ daysInMonth year month ∧ daysInMonth year month ≤ 31 := by
  unfold daysInMonth
  split
  · split <;> omega
  · split <;> omega

namespace Date

variable {d e : Date} {year : Int} {month day n : Nat}

theorem ext_fields (sameYear : d.year = e.year) (sameMonth : d.month = e.month)
    (sameDay : d.day = e.day) : d = e := by
  cases d
  cases e
  cases sameYear
  cases sameMonth
  cases sameDay
  rfl

/-- The first of a month. -/
def firstOf (year : Int) (month : Nat) (pos : 1 ≤ month) (le : month ≤ 12) : Date :=
  ⟨year, month, 1, pos, le, Nat.one_pos, by have := (daysInMonth_bounds year month).1; omega⟩

/-- The following day. -/
def next (d : Date) : Date :=
  if room : d.day < daysInMonth d.year d.month then
    { d with day := d.day + 1, day_pos := by omega, day_le := room }
  else if later : d.month < 12 then firstOf d.year (d.month + 1) (by omega) later
  else firstOf (d.year + 1) 1 Nat.one_pos (Nat.le_trans d.month_pos d.month_le)

/-- Within a month the days are counted up. -/
theorem iterate_next_within (room : d.day + n ≤ daysInMonth d.year d.month) :
    (next^[n] d).year = d.year ∧ (next^[n] d).month = d.month ∧ (next^[n] d).day = d.day + n := by
  induction n with
  | zero => simp
  | succ n ih =>
    obtain ⟨sameYear, sameMonth, sameDay⟩ := ih (by omega)
    have more : (next^[n] d).day < daysInMonth (next^[n] d).year (next^[n] d).month := by
      rw [sameYear, sameMonth, sameDay]
      omega
    rw [Function.iterate_succ_apply', next, dif_pos more]
    exact ⟨sameYear, sameMonth, congrArg (· + 1) sameDay⟩

/-- The last day of a month before December is followed by the first of the next month. -/
theorem next_last (last : d.day = daysInMonth d.year d.month) (later : d.month < 12) :
    d.next = firstOf d.year (d.month + 1) (by omega) later := by
  rw [next, dif_neg (by omega), dif_pos later]

/-- The date that a year, a month and a day come to: that day of the month if there is one, and
otherwise the day that is as many days past the end of the month, in the same year. -/
structure ComesTo (year : Int) (month day : Nat) (d : Date) : Prop where
  inYear : d.year = year
  within : day ≤ daysInMonth year month → d.month = month ∧ d.day = day
  beyond : daysInMonth year month < day → ∃ last : Date, last.year = year ∧ last.month = month ∧
    last.day = daysInMonth year month ∧ d = next^[day - daysInMonth year month] last

theorem exists_rolledOver? (year : Int) (month_pos : 1 ≤ month) (month_le : month ≤ 12)
    (day_pos : 1 ≤ day) (day_le : day ≤ 31) :
    ∃ d, rolledOver? year month day = some d ∧ ComesTo year month day d := by
  obtain ⟨low, high⟩ := daysInMonth_bounds year month
  by_cases within : day ≤ daysInMonth year month
  · refine ⟨⟨year, month, day, month_pos, month_le, day_pos, within⟩, ?_, rfl, fun _ => ⟨rfl, rfl⟩,
      fun beyond => by omega⟩
    rw [rolledOver?, if_pos within, make?, dif_pos ⟨month_pos, month_le, day_pos, within⟩]
  · -- December has 31 days, so there is a next month, and the days left over are few.
    have later : month < 12 := by
      by_contra december
      obtain rfl : month = 12 := by omega
      exact within day_le
    obtain ⟨n, left⟩ : ∃ n, day - daysInMonth year month = n + 1 :=
      ⟨day - daysInMonth year month - 1, by omega⟩
    have room := (daysInMonth_bounds year (month + 1)).1
    let last : Date := ⟨year, month, daysInMonth year month, month_pos, month_le, by omega, by omega⟩
    let first := firstOf year (month + 1) (by omega) later
    obtain ⟨sameYear, sameMonth, sameDay⟩ := iterate_next_within (d := first) (n := n)
      (Nat.le_trans (by change 1 + n ≤ 28; omega) room)
    have counted : next^[n + 1] last = next^[n] first := by
      rw [Function.iterate_succ_apply, next_last (d := last) rfl later]
    refine ⟨next^[n] first, ?_, sameYear, fun h => absurd h within,
      fun _ => ⟨last, rfl, rfl, rfl, by rw [left, counted]⟩⟩
    rw [rolledOver?, if_neg within, left, make?,
      dif_pos ⟨by omega, by omega, by omega, by omega⟩, Option.some_inj]
    refine ext_fields sameYear.symm sameMonth.symm ?_
    rw [sameDay]
    exact Nat.add_comm n 1

end Date
end KinQuery
