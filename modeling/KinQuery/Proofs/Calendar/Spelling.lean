import KinQuery.Proofs.Text.Decimal

/-! Dates that terms spell, the dates they stand for, and how those are spelled in turn.

The day and the month of a spelling are read as they stand, and the days beyond the end of a month
run into the next. The year may hold digits of other scripts. They have no value, so such a year
counts as zero, and a date of the year zero is spelled as no term spells a date. -/
namespace KinQuery

open Nat (ofDigitChars)

namespace Text

/-- With a digit that has no value there is no number. -/
theorem readNat?_of_not_isDigit {cs : List Char} (other : ∃ c ∈ cs, c.isDigit = false) :
    readNat? cs = none := by
  have none (total : Nat) :
      cs.foldlM (fun total c => (digitValue? c).map (10 * total + ·)) total = none := by
    induction cs generalizing total with
    | nil => simp at other
    | cons c cs ih =>
      rw [List.foldlM_cons]
      cases digit : c.isDigit with
      | false => simp [digitValue?, digit]
      | true =>
        have rest : ∃ c ∈ cs, c.isDigit = false := by simpa [digit] using other
        have value : digitValue? c = some (c.toNat - '0'.toNat) := if_pos digit
        rw [value]
        exact ih rest _
  unfold readNat?
  split
  · rfl
  · exact none 0

theorem toNat_le_of_le {a b : Char} (h : a ≤ b) : a.toNat ≤ b.toNat :=
  UInt32.le_iff_toNat_le.1 (Char.le_def.1 h)

/-- The codes of the digits that begin and end the ranges of fields. -/
theorem toNat_digits : '0'.toNat = 48 ∧ '1'.toNat = 49 ∧ '2'.toNat = 50 ∧ '3'.toNat = 51 ∧
    '9'.toNat = 57 := by decide

end Text

namespace Date

variable {d : Date} {text : String} {cs day month year : List Char}

/-! ### The numbers of fields -/

theorem fieldValue_of_isDigit (nonempty : cs ≠ []) (plain : ∀ c ∈ cs, c.isDigit = true) :
    fieldValue cs = ofDigitChars 10 cs 0 := by
  rw [fieldValue, Text.readNat?_of_isDigit nonempty plain, Option.getD_some]

theorem isDayField_bounds (field : isDayField cs = true) (plain : ∀ c ∈ cs, c.isDigit = true) :
    1 ≤ ofDigitChars 10 cs 0 ∧ ofDigitChars 10 cs 0 ≤ 31 := by
  obtain ⟨zero, one, two, three, nine⟩ := Text.toNat_digits
  match cs, field with
  | [c], field =>
    simp only [isDayField, Bool.and_eq_true, decide_eq_true_eq] at field
    have low := Text.toNat_le_of_le field.1
    have high := Text.toNat_le_of_le field.2
    simp only [Nat.ofDigitChars_cons, Nat.ofDigitChars_nil]
    omega
  | [c, d], field =>
    have digit := Char.isDigit_iff_toNat.1 (plain d (by simp))
    simp only [isDayField, Bool.and_eq_true, Bool.or_eq_true, decide_eq_true_eq] at field
    simp only [Nat.ofDigitChars_cons, Nat.ofDigitChars_nil]
    rcases field with (⟨⟨rfl, low⟩, -⟩ | ⟨rfl | rfl, -⟩) | ⟨rfl, rfl | rfl⟩
    · have low := Text.toNat_le_of_le low
      omega
    all_goals omega

theorem isMonthField_bounds (field : isMonthField cs = true) :
    (∀ c ∈ cs, c.isDigit = true) ∧ 1 ≤ ofDigitChars 10 cs 0 ∧ ofDigitChars 10 cs 0 ≤ 12 := by
  obtain ⟨zero, one, two, three, nine⟩ := Text.toNat_digits
  match cs, field with
  | [c], field =>
    simp only [isMonthField, Bool.and_eq_true, decide_eq_true_eq] at field
    have low := Text.toNat_le_of_le field.1
    have high := Text.toNat_le_of_le field.2
    simp only [Nat.ofDigitChars_cons, Nat.ofDigitChars_nil, List.forall_mem_singleton,
      Char.isDigit_iff_toNat]
    omega
  | [c, d], field =>
    simp only [isMonthField, Bool.and_eq_true, Bool.or_eq_true, decide_eq_true_eq] at field
    simp only [Nat.ofDigitChars_cons, Nat.ofDigitChars_nil, List.forall_mem_cons,
      List.not_mem_nil, IsEmpty.forall_iff, implies_true, and_true, Char.isDigit_iff_toNat]
    rcases field with ⟨⟨rfl, low⟩, high⟩ | ⟨⟨rfl, low⟩, high⟩
    all_goals
      have low := Text.toNat_le_of_le low
      have high := Text.toNat_le_of_le high
      omega

/-! ### Dates as they are rendered -/

theorem isYearField_toString_iff {year : Int} :
    isYearField (toString year).toList = true ↔ 1000 ≤ year ∧ year ≤ 2999 := by
  constructor
  · intro field
    by_cases positive : 0 ≤ year
    · rw [toList_toString positive] at field
      have range := fieldValue_year field fun c hc _ => Text.isDigit_of_mem_toDigits hc
      rw [fieldValue_toDigits] at range
      omega
    · -- A sign is no first digit of a year.
      rw [toList_toString_of_neg positive] at field
      unfold isYearField at field
      split at field
      · rename_i c d e f same
        obtain ⟨rfl, -⟩ := List.cons.inj same
        simp at field
      · cases field
  · rintro ⟨lower, upper⟩
    rw [toList_toString (by omega)]
    exact isYearField_toDigits (by omega) (by omega)

/-- What a date is rendered as is accepted exactly if the year is one that terms can spell. -/
theorem isSpelling_text_iff : isSpelling d.text = true ↔ d.IsSpellable := by
  rw [isSpelling, fields?_text_eq, IsSpellable, ← isYearField_toString_iff]
  cases isYearField (toString d.year).toList <;> simp

/-! ### Dates as they are read -/

theorem fields?_eq_some (h : fields? cs = some (day, month, year)) :
    isDayField day = true ∧ isMonthField month = true ∧ isYearField year = true := by
  unfold fields? at h
  split at h
  · split at h
    · rename_i good
      cases h
      simpa [and_assoc] using good
    · cases h
  · cases h

/-- A text that spells a date is read as one. Its rendering is accepted, and then read as the same
date, exactly if the year is spelled with ASCII digits; and then the date is the one that the
numbers come to. -/
theorem read?_spelling (spelled : fields? text.toList = some (day, month, year))
    (plain : ∀ c ∈ day, c.isDigit = true) :
    ∃ d, read? text = some d ∧
      ((isSpelling d.text = true ∧ read? d.text = some d) ↔ ∀ c ∈ year, c.isDigit = true) ∧
      ((∀ c ∈ year, c.isDigit = true) → ComesTo (ofDigitChars 10 year 0)
        (ofDigitChars 10 month 0) (ofDigitChars 10 day 0) d) := by
  obtain ⟨dayField, monthField, yearField⟩ := fields?_eq_some spelled
  obtain ⟨day_pos, day_le⟩ := isDayField_bounds dayField plain
  obtain ⟨monthPlain, month_pos, month_le⟩ := isMonthField_bounds monthField
  have dayValue : fieldValue day = ofDigitChars 10 day 0 :=
    fieldValue_of_isDigit (by rintro rfl; cases dayField) plain
  have monthValue : fieldValue month = ofDigitChars 10 month 0 :=
    fieldValue_of_isDigit (by rintro rfl; cases monthField) monthPlain
  obtain ⟨d, rolled, comes⟩ :=
    exists_rolledOver? (fieldValue year) month_pos month_le day_pos day_le
  have inYear : d.year = fieldValue year := comes.inYear
  have read : read? text = some d := by
    rw [read?, spelled, Option.bind_some]
    dsimp only
    rw [dayValue, monthValue, rolled]
  refine ⟨d, read, ⟨?_, fun yearPlain => ?_⟩, fun yearPlain => ?_⟩
  · rintro ⟨accepted, -⟩
    by_contra foreign
    have other : ∃ c ∈ year, c.isDigit = false := by simpa using foreign
    have zero : fieldValue year = 0 := by
      rw [fieldValue, Text.readNat?_of_not_isDigit other, Option.getD_none]
    have lower := (isSpelling_text_iff.1 accepted).1
    omega
  · have range := fieldValue_year yearField fun c hc _ => yearPlain c hc
    have spellable : d.IsSpellable := by
      rw [IsSpellable, inYear]
      omega
    exact ⟨isSpelling_text spellable, read?_text spellable⟩
  · rw [fieldValue_of_isDigit (by rintro rfl; cases yearField) yearPlain] at comes
    exact comes

/-- The last of February 2000 is the 29th, and two days later it is the 2nd of March. -/
theorem read?_spelling_beyond :
    ∃ d, read? "31.02.2000" = some d ∧ d.text = "2.3.2000" ∧ isSpelling d.text = true ∧
      read? d.text = some d ∧ ComesTo 2000 2 31 d := by
  have spelled :
      fields? "31.02.2000".toList = some (['3', '1'], ['0', '2'], ['2', '0', '0', '0']) := by
    decide +kernel
  have days : ∀ c ∈ ['3', '1'], c.isDigit = true := List.forall_iff_forall_mem.1 (by decide)
  have years : ∀ c ∈ ['2', '0', '0', '0'], c.isDigit = true :=
    List.forall_iff_forall_mem.1 (by decide)
  obtain ⟨d, read, accepted, comes⟩ := read?_spelling spelled days
  have known : read? "31.02.2000" = make? 2000 3 2 := by decide +kernel
  have same : d = ⟨2000, 3, 2, by decide, by decide, by decide, by decide⟩ :=
    Option.some.inj (read.symm.trans known)
  obtain ⟨again, still⟩ := accepted.2 years
  exact ⟨d, read, by rw [same]; decide +kernel, again, still, comes years⟩

/-- The year of this date has a digit of another script, and the date is rendered in the year 0. -/
theorem not_isSpelling_foreign :
    isSpelling "1.1.1\u066300" = true ∧ ∃ d, read? "1.1.1\u066300" = some d ∧
      d.text = "1.1.0" ∧ isSpelling d.text = false ∧ read? d.text = none := by
  refine ⟨by decide +kernel, ⟨0, 1, 1, by decide, by decide, by decide, by decide⟩,
    by decide +kernel, ?_⟩
  decide +kernel

end Date
end KinQuery
