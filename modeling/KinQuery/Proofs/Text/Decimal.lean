import KinQuery.Calendar
import KinQuery.Numeral
import KinQuery.Proofs.Calendar.Rollover
import KinQuery.Proofs.Dictionary.Key

/-! Numerals and dates are read back as they are spelled. -/
namespace KinQuery

open Nat (toDigits ofDigitChars)

/-! ### Digits -/

namespace Text

theorem isDecimalDigit_of_isDigit {c : Char} (h : c.isDigit = true) : isDecimalDigit c = true := by
  simp [isDecimalDigit, h]

theorem isDigit_of_mem_toDigits {n : Nat} {c : Char} (h : c ∈ toDigits 10 n) : c.isDigit = true :=
  Nat.isDigit_of_mem_toDigits (by decide) (by decide) h

/-- Digits are read one by one, onto the number read so far. -/
theorem foldlM_digitValue? {cs : List Char} (digits : ∀ c ∈ cs, c.isDigit = true) (total : Nat) :
    cs.foldlM (fun total c => (digitValue? c).map (10 * total + ·)) total =
      some (ofDigitChars 10 cs total) := by
  induction cs generalizing total with
  | nil => simp
  | cons c cs ih =>
    obtain ⟨first, rest⟩ := List.forall_mem_cons.1 digits
    have value : digitValue? c = some (c.toNat - '0'.toNat) := by simp [digitValue?, first]
    rw [List.foldlM_cons, value, Nat.ofDigitChars_cons]
    exact ih rest _

theorem readNat?_of_isDigit {cs : List Char} (nonempty : cs ≠ [])
    (digits : ∀ c ∈ cs, c.isDigit = true) : readNat? cs = some (ofDigitChars 10 cs 0) := by
  have notEmpty : cs.isEmpty = false := by simpa using nonempty
  rw [readNat?, notEmpty]
  exact foldlM_digitValue? digits 0

theorem readNat?_toDigits (n : Nat) : readNat? (toDigits 10 n) = some n := by
  rw [readNat?_of_isDigit Nat.toDigits_ne_nil fun _ h => isDigit_of_mem_toDigits h]
  simp

end Text

/-! ### Numerals -/

namespace Numeral

theorem le_ofDigitChars (cs : List Char) (m : Nat) : m ≤ ofDigitChars 10 cs m := by
  induction cs generalizing m with
  | nil => simp
  | cons c cs ih =>
    have step := ih (10 * m + (c.toNat - '0'.toNat))
    rw [Nat.ofDigitChars_cons]
    omega

/-- An integer with a sign put to a natural number. -/
def signed (negative : Bool) (m : Nat) : Int :=
  if negative then -(m : Int) else m

/-- Digits that spell a numeral in the end spell a numeral all the way. -/
theorem readDigits_eq (negative : Bool) {cs : List Char} (digits : ∀ c ∈ cs, c.isDigit = true)
    {total result : Numeral} {m : Nat} (htotal : total.val = signed negative m)
    (hresult : result.val = signed negative (ofDigitChars 10 cs m)) :
    readDigits negative total cs = .ok result := by
  induction cs generalizing total m with
  | nil =>
    have same : total.val = result.val := by rw [htotal, hresult, Nat.ofDigitChars_nil]
    have equal : total = result := by
      cases total
      cases result
      cases same
      rfl
    rw [readDigits, equal]
  | cons c cs ih =>
    obtain ⟨first, rest⟩ := List.forall_mem_cons.1 digits
    have value : Text.digitValue? c = some (c.toNat - '0'.toNat) := by
      simp [Text.digitValue?, first]
    rw [Nat.ofDigitChars_cons] at hresult
    generalize hm : 10 * m + (c.toNat - '0'.toNat) = next at hresult
    have bound := le_ofDigitChars cs next
    have lower := result.lower
    have upper := result.upper
    have sum : 10 * total.val + (if negative = true then -((c.toNat - '0'.toNat : Nat) : Int)
        else ((c.toNat - '0'.toNat : Nat) : Int)) = signed negative next := by
      rw [htotal, signed, signed]
      cases negative with
      | true => simp only [if_true]; omega
      | false => simp only [Bool.false_eq_true, if_false]; omega
    have fits : -9223372036854775808 ≤ signed negative next ∧
        signed negative next < 9223372036854775808 := by
      rw [hresult] at lower upper
      cases negative with
      | true => simp only [signed, if_true] at lower upper ⊢; omega
      | false => simp only [signed, Bool.false_eq_true, if_false] at lower upper ⊢; omega
    obtain ⟨read, hread⟩ : ∃ read : Numeral, read.val = signed negative next :=
      ⟨⟨signed negative next, fits.1, fits.2⟩, rfl⟩
    rw [readDigits, value]
    dsimp only
    rw [sum, ofInt?_eq_some_iff.2 hread]
    exact ih rest hread hresult

/-- The characters of a numeral: its digits, after a minus sign if it is negative. -/
theorem toList_text (n : Numeral) : n.text.toList =
    (if 0 ≤ n.val then [] else ['-']) ++ toDigits 10 n.val.natAbs := by
  rw [text, Int.toString_eq_repr, Int.repr_eq_if]
  by_cases sign : 0 ≤ n.val
  · have abs : n.val.toNat = n.val.natAbs := by omega
    rw [if_pos sign, if_pos sign, Nat.toList_repr, abs, List.nil_append]
  · have abs : (-n.val).toNat = n.val.natAbs := by omega
    rw [if_neg sign, if_neg sign, String.toList_append, Nat.toList_repr, abs]
    rfl

/-- The digits of a number do not begin with a minus sign. -/
theorem toDigits_eq_cons (n : Nat) :
    ∃ c cs, toDigits 10 n = c :: cs ∧ c.isDigit = true ∧ c ≠ '-' := by
  cases h : toDigits 10 n with
  | nil => exact absurd h Nat.toDigits_ne_nil
  | cons c cs =>
    have digit : c.isDigit = true := Text.isDigit_of_mem_toDigits (h ▸ List.mem_cons_self)
    refine ⟨c, cs, rfl, digit, ?_⟩
    rintro rfl
    exact absurd digit (by decide)

theorem isSpelling_text (n : Numeral) : isSpelling n.text.toList = true := by
  have digits : (toDigits 10 n.val.natAbs).all Text.isDecimalDigit = true :=
    List.all_eq_true.2 fun c hc => Text.isDecimalDigit_of_isDigit (Text.isDigit_of_mem_toDigits hc)
  obtain ⟨c, cs, hcs, -, sign⟩ := toDigits_eq_cons n.val.natAbs
  rw [toList_text]
  rw [hcs] at digits ⊢
  by_cases positive : 0 ≤ n.val
  · rw [if_pos positive, List.nil_append, isSpelling.eq_2]
    · simpa using digits
    · intro cs' h
      exact sign (List.cons.inj h).1
  · rw [if_neg positive, List.singleton_append, isSpelling]
    simpa using digits

theorem read_text (n : Numeral) : read n.text = .ok n := by
  have digits : ∀ c ∈ toDigits 10 n.val.natAbs, c.isDigit = true :=
    fun c hc => Text.isDigit_of_mem_toDigits hc
  have whole : ofDigitChars 10 (toDigits 10 n.val.natAbs) 0 = n.val.natAbs := by simp
  have spelled := toList_text n
  obtain ⟨c, cs, hcs, -, sign⟩ := toDigits_eq_cons n.val.natAbs
  unfold read
  by_cases positive : 0 ≤ n.val
  · rw [if_pos positive, List.nil_append] at spelled
    split
    · rename_i rest minus
      rw [spelled, hcs] at minus
      exact absurd (List.cons.inj minus).1 sign
    · rw [spelled]
      refine readDigits_eq false digits rfl ?_
      rw [whole, signed, if_neg (by simp)]
      omega
  · rw [if_neg positive, List.singleton_append] at spelled
    split
    · rename_i rest minus
      rw [spelled] at minus
      rw [← (List.cons.inj minus).2]
      refine readDigits_eq true digits (m := 0) rfl ?_
      rw [whole, signed, if_pos rfl]
      omega
    · rename_i other
      exact absurd spelled (other _)

end Numeral

/-! ### Dates -/

namespace Date

/-- The years that dates in terms can have. -/
def IsSpellable (d : Date) : Prop :=
  1000 ≤ d.year ∧ d.year ≤ 2999

theorem isDayField_toDigits : ∀ n < 32, 1 ≤ n → isDayField (toDigits 10 n) = true := by
  decide +kernel

theorem isMonthField_toDigits : ∀ n < 13, 1 ≤ n → isMonthField (toDigits 10 n) = true := by
  decide +kernel

theorem isYearField_toDigits {n : Nat} (lower : 1000 ≤ n) (upper : n < 3000) :
    isYearField (toDigits 10 n) = true := by
  have digits : toDigits 10 n = [(n / 10 / 10 / 10).digitChar, (n / 10 / 10 % 10).digitChar,
      (n / 10 % 10).digitChar, (n % 10).digitChar] := by
    have ten : 1 < 10 := by decide
    rw [Nat.toDigits_of_base_le ten (by omega : 10 ≤ n),
      Nat.toDigits_of_base_le ten (by omega : 10 ≤ n / 10),
      Nat.toDigits_of_base_le ten (by omega : 10 ≤ n / 10 / 10),
      Nat.toDigits_of_lt_base (by omega : n / 10 / 10 / 10 < 10)]
    rfl
  have decimal : ∀ c ∈ toDigits 10 n, Text.isDecimalDigit c = true := fun c hc =>
    Text.isDecimalDigit_of_isDigit (Text.isDigit_of_mem_toDigits hc)
  have first : n / 10 / 10 / 10 = 1 ∨ n / 10 / 10 / 10 = 2 := by omega
  rw [digits] at decimal ⊢
  simp only [List.forall_mem_cons] at decimal
  have one : (1 : Nat).digitChar = '1' := by decide
  have two : (2 : Nat).digitChar = '2' := by decide
  rcases first with first | first
  · simp [isYearField, decimal, first, one]
  · simp [isYearField, decimal, first, two]

theorem notMem_toDigits {n : Nat} {c : Char} (other : c.isDigit = false) : c ∉ toDigits 10 n := by
  intro h
  rw [Text.isDigit_of_mem_toDigits h] at other
  cases other

theorem toList_toString {year : Int} (positive : 0 ≤ year) :
    (toString year).toList = toDigits 10 year.toNat := by
  rw [Int.toString_eq_repr, Int.repr_eq_if, if_pos positive, Nat.toList_repr]

theorem toList_toString_of_neg {year : Int} (negative : ¬0 ≤ year) :
    (toString year).toList = '-' :: toDigits 10 (-year).toNat := by
  rw [Int.toString_eq_repr, Int.repr_eq_if, if_neg negative, String.toList_append, Nat.toList_repr]
  rfl

/-- The characters of a date in any year. -/
theorem toList_text_eq (d : Date) : d.text.toList =
    toDigits 10 d.day ++ '.' :: (toDigits 10 d.month ++ '.' :: (toString d.year).toList) := by
  simp only [text, String.toList_append, Nat.toString_eq_repr, Nat.toList_repr, List.append_assoc]
  rfl

theorem toList_text {d : Date} (h : d.IsSpellable) : d.text.toList =
    toDigits 10 d.day ++ '.' :: (toDigits 10 d.month ++ '.' :: toDigits 10 d.year.toNat) := by
  have positive : 0 ≤ d.year := by
    have := h.1
    omega
  rw [toList_text_eq, toList_toString positive]

theorem day_lt (d : Date) : d.day < 32 :=
  Nat.lt_succ_of_le (Nat.le_trans d.day_le (daysInMonth_bounds d.year d.month).2)

theorem splitOn_text (d : Date) : Text.splitOn '.' d.text.toList =
    [toDigits 10 d.day, toDigits 10 d.month, (toString d.year).toList] := by
  have dot : ('.').isDigit = false := by decide
  have year : '.' ∉ (toString d.year).toList := by
    by_cases positive : 0 ≤ d.year
    · rw [toList_toString positive]
      exact notMem_toDigits dot
    · rw [toList_toString_of_neg positive]
      simpa using notMem_toDigits dot
  rw [toList_text_eq, Text.splitOn_append (notMem_toDigits dot),
    Text.splitOn_append (notMem_toDigits dot), Text.splitOn_of_notMem year]

/-- Of the fields of a rendered date the year alone may be refused. -/
theorem fields?_text_eq (d : Date) : fields? d.text.toList =
    if isYearField (toString d.year).toList then
      some (toDigits 10 d.day, toDigits 10 d.month, (toString d.year).toList)
    else none := by
  have day := isDayField_toDigits d.day d.day_lt d.day_pos
  have month := isMonthField_toDigits d.month (by have := d.month_le; omega) d.month_pos
  rw [fields?, splitOn_text]
  simp [day, month]

theorem toDigits_injective : Function.Injective (toDigits 10) := fun m n same => by
  have read := Text.readNat?_toDigits m
  rw [same, Text.readNat?_toDigits] at read
  exact (Option.some.inj read).symm

theorem toString_injective : Function.Injective (toString : Int → String) := by
  intro year other same
  have chars : (toString year).toList = (toString other).toList := by rw [same]
  have sign (n : Nat) : '-' ∉ toDigits 10 n := notMem_toDigits (by decide)
  by_cases positive : 0 ≤ year
  · rw [toList_toString positive] at chars
    by_cases positive' : 0 ≤ other
    · rw [toList_toString positive'] at chars
      have := toDigits_injective chars
      omega
    · rw [toList_toString_of_neg positive'] at chars
      exact absurd (chars ▸ List.mem_cons_self) (sign year.toNat)
  · rw [toList_toString_of_neg positive] at chars
    by_cases positive' : 0 ≤ other
    · rw [toList_toString positive'] at chars
      exact absurd (chars ▸ List.mem_cons_self) (sign other.toNat)
    · rw [toList_toString_of_neg positive'] at chars
      have := toDigits_injective (List.cons.inj chars).2
      omega

/-- No two dates are rendered alike, in whatever years they lie. -/
theorem text_injective : Function.Injective text := by
  intro d e same
  have fields := splitOn_text d
  rw [same, splitOn_text] at fields
  simp only [List.cons.injEq, and_true] at fields
  obtain ⟨day, month, year⟩ := fields
  exact ext_fields (toString_injective (String.toList_inj.1 year)).symm
    (toDigits_injective month).symm (toDigits_injective day).symm

theorem fields?_text {d : Date} (h : d.IsSpellable) : fields? d.text.toList =
    some (toDigits 10 d.day, toDigits 10 d.month, toDigits 10 d.year.toNat) := by
  obtain ⟨lower, upper⟩ := h
  rw [fields?_text_eq, toList_toString (by omega), if_pos (isYearField_toDigits (by omega) (by omega))]

theorem isSpelling_text {d : Date} (h : d.IsSpellable) : isSpelling d.text = true := by
  rw [isSpelling, fields?_text h]
  rfl

theorem fieldValue_toDigits (n : Nat) : fieldValue (toDigits 10 n) = n := by
  rw [fieldValue, Text.readNat?_toDigits, Option.getD_some]

theorem read?_text {d : Date} (h : d.IsSpellable) : read? d.text = some d := by
  have year : ((d.year.toNat : Nat) : Int) = d.year := by
    have := h.1
    omega
  rw [read?, fields?_text h, Option.bind_some]
  dsimp only
  rw [fieldValue_toDigits, fieldValue_toDigits, fieldValue_toDigits, year, rolledOver?,
    if_pos d.day_le, make?, dif_pos ⟨d.month_pos, d.month_le, d.day_pos, d.day_le⟩]

/-! Texts without digits of other scripts spell dates in these years alone. -/

theorem year_of_make? {year : Int} {month day : Nat} {d : Date}
    (h : make? year month day = some d) : d.year = year := by
  rw [make?] at h
  split at h
  · cases h
    rfl
  · cases h

theorem year_of_rolledOver? {year : Int} {month day : Nat} {d : Date}
    (h : rolledOver? year month day = some d) : d.year = year := by
  rw [rolledOver?] at h
  split at h
  · exact year_of_make? h
  · exact year_of_make? h

theorem fieldValue_year {cs : List Char} (field : isYearField cs = true)
    (ascii : ∀ c ∈ cs, Text.isDecimalDigit c = true → c.isDigit = true) :
    1000 ≤ fieldValue cs ∧ fieldValue cs ≤ 2999 := by
  match cs, field with
  | [c, d, e, f], field =>
    simp only [isYearField, Bool.and_eq_true, Bool.or_eq_true, decide_eq_true_eq] at field
    obtain ⟨⟨⟨first, hd⟩, he⟩, hf⟩ := field
    have digit (x : Char) (hx : x.isDigit = true) : x.toNat - '0'.toNat ≤ 9 := by
      have := (Char.isDigit_iff_toNat.1 hx).2
      have zero : '0'.toNat = 48 := by decide
      have nine : '9'.toNat = 57 := by decide
      omega
    have hd := ascii d (by simp) hd
    have he := ascii e (by simp) he
    have hf := ascii f (by simp) hf
    have dd := digit d hd
    have de := digit e he
    have df := digit f hf
    have hc : c.isDigit = true ∧ 1 ≤ c.toNat - '0'.toNat ∧ c.toNat - '0'.toNat ≤ 2 := by
      rcases first with rfl | rfl <;> decide
    have all : ∀ x ∈ [c, d, e, f], x.isDigit = true := by simp [hc.1, hd, he, hf]
    rw [fieldValue, Text.readNat?_of_isDigit (by simp) all, Option.getD_some]
    simp only [Nat.ofDigitChars_cons, Nat.ofDigitChars_nil]
    omega

theorem isSpellable_of_read? {text : String} {d : Date}
    (ascii : ∀ c ∈ text.toList, Text.isDecimalDigit c = true → c.isDigit = true)
    (h : read? text = some d) : d.IsSpellable := by
  rw [read?, Option.bind_eq_some_iff] at h
  obtain ⟨⟨day, month, year⟩, hfields, h⟩ := h
  have known := year_of_rolledOver? h
  rw [fields?] at hfields
  split at hfields
  · rename_i day' month' year' pieces
    split at hfields
    · rename_i good
      cases hfields
      simp only [Bool.and_eq_true] at good
      have mem : year ∈ Text.splitOn '.' text.toList := by simp [pieces]
      have inside : ∀ c ∈ year, c ∈ text.toList := fun c hc => Text.mem_of_mem_splitOn mem hc
      have range := fieldValue_year good.2 fun c hc => ascii c (inside c hc)
      rw [IsSpellable, known]
      omega
    · cases hfields
  · cases hfields

end Date
end KinQuery
