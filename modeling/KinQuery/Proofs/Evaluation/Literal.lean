import KinQuery.Proofs.Evaluation.Atom
import KinQuery.Proofs.Text.Decimal

/-! Which literals atoms are held for: the spelling of a value for a literal of its kind, and
the name of a function or of a definition for none. -/
namespace KinQuery

open Nat (toDigits)

/-! ### References -/

/-- Names that definitions and parameters may bear. -/
def IsProper (name : String) : Prop :=
  isReference name = true ∧ isKeyword name = false

theorem toList_eq_dropQuestion (name : String) :
    ∃ rest, name.toList = dropQuestion name.toList ++ rest ∧ ∀ c ∈ rest, c = '?' := by
  unfold dropQuestion
  split
  · rename_i rest hrest
    refine ⟨['?'], ?_, by simp⟩
    rw [← List.reverse_cons, ← hrest, List.reverse_reverse]
  · exact ⟨[], by simp, by simp⟩

/-- A reference begins with a letter. -/
theorem toList_of_isReference {name : String} (h : isReference name = true) :
    ∃ c cs, name.toList = c :: cs ∧ isLetter c = true := by
  unfold isReference at h
  obtain ⟨rest, whole, -⟩ := toList_eq_dropQuestion name
  cases hw : dropQuestion name.toList with
  | nil => simp [hw, Text.splitOn] at h
  | cons c cs =>
    refine ⟨c, cs ++ rest, by rw [whole, hw, List.cons_append], ?_⟩
    rw [hw, Text.splitOn] at h
    split at h
    · simp at h
    · split at h
      · rename_i piece pieces _
        simp at h
        exact h.1.1
      · simpa using h

theorem isDecimalDigit_of_isLetter {c : Char} (h : isLetter c = true) :
    Text.isDecimalDigit c = false := by
  have digits : ∀ n < 123, 97 ≤ n → (Text.digitZeros.any fun first =>
      first ≤ n && n < first + 10) = false := by decide +kernel
  simp only [isLetter, Bool.and_eq_true, decide_eq_true_eq, Char.le_def, UInt32.le_iff_toNat_le] at h
  have lower : 97 ≤ c.toNat := h.1
  have upper : c.toNat ≤ 122 := h.2
  have ascii : c.isDigit = false := by
    rw [Char.isDigit, Bool.and_eq_false_iff]
    right
    simp only [decide_eq_false_iff_not, UInt32.le_iff_toNat_le, not_le]
    change 57 < c.toNat
    omega
  rw [Text.isDecimalDigit, ascii, digits c.toNat (by omega) lower]
  rfl

/-! ### Recognition -/

namespace Kind
variable {text name : String}

/-- The order in which an atom is held against the kinds. -/
theorem recognize_eq (text : String) : recognize text =
    if boolean.accepts text then some boolean else if numeral.accepts text then some numeral
    else if string.accepts text then some string else if void.accepts text then some void
    else if date.accepts text then some date else if list.accepts text then some list
    else if person.accepts text then some person else none := by
  simp only [recognize, literals, List.find?_cons, List.find?_nil]
  repeat' split
  all_goals first | rfl | simp_all

theorem recognize_numeral (n : Numeral) : recognize n.text = some numeral := by
  have spelling := n.isSpelling_text
  have other (text : String) (h : Numeral.isSpelling text.toList = false) : n.text ≠ text := by
    rintro rfl
    rw [spelling] at h
    cases h
  have notTrue := other "true" (by decide +kernel)
  have notFalse := other "false" (by decide +kernel)
  rw [recognize_eq]
  simp [accepts, spelling, notTrue, notFalse]

theorem toList_stringLiteral (s : String) :
    (Value.stringLiteral s).toList = Text.quote :: (s.toList ++ [Text.quote]) := by
  simp [Value.stringLiteral, String.toList_append]
  rfl

theorem recognize_string {s : String} (free : Text.quote ∉ s.toList) :
    recognize (Value.stringLiteral s) = some string := by
  have spelled := toList_stringLiteral s
  have other (text : String) (h : text.toList.head? ≠ some Text.quote) :
      Value.stringLiteral s ≠ text := by
    rintro rfl
    rw [spelled] at h
    exact h rfl
  have notTrue := other "true" (by decide +kernel)
  have notFalse := other "false" (by decide +kernel)
  have notNumeral : Numeral.isSpelling (Text.quote :: (s.toList ++ [Text.quote])) = false := by
    have quote : Text.isDecimalDigit Text.quote = false := by decide +kernel
    rw [Numeral.isSpelling.eq_2]
    · simp [quote]
    · intro cs h
      exact absurd (List.cons.inj h).1 (by decide)
  rw [recognize_eq]
  simp [accepts, spelled, notTrue, notFalse, notNumeral, isQuoted, free]

theorem recognize_date {d : Date} (h : d.IsSpellable) : recognize d.text = some date := by
  have spelling := Date.isSpelling_text h
  have other (text : String) (h : Date.isSpelling text = false) : d.text ≠ text := by
    rintro rfl
    rw [spelling] at h
    cases h
  have notTrue := other "true" (by decide +kernel)
  have notFalse := other "false" (by decide +kernel)
  have notVoid := other "void" (by decide +kernel)
  have spelled := Date.toList_text h
  obtain ⟨c, cs, hcs, digit, sign⟩ := Numeral.toDigits_eq_cons d.day
  have notNumeral : Numeral.isSpelling d.text.toList = false := by
    have dot : Text.isDecimalDigit '.' = false := by decide +kernel
    rw [spelled, hcs, List.cons_append, Numeral.isSpelling.eq_2]
    · simp [dot]
    · intro cs' h
      exact sign (List.cons.inj h).1
  have notString : isQuoted d.text.toList = false := by
    rw [spelled, hcs, List.cons_append, isQuoted]
    have quote : c ≠ Text.quote := by
      rintro rfl
      exact absurd digit (by decide)
    simp [quote]
  rw [recognize_eq]
  simp [accepts, spelling, notTrue, notFalse, notVoid, notNumeral, notString]

theorem isDayField_of_isLetter {c : Char} (h : isLetter c = true) (cs : List Char) :
    Date.isDayField (c :: cs) = false := by
  have lower : 'a' ≤ c := by
    rw [isLetter, Bool.and_eq_true] at h
    exact of_decide_eq_true h.1
  have above : ¬c ≤ '9' := fun upper => absurd (Char.le_trans lower upper) (by decide)
  have other (d : Char) (hd : d ≤ '9') : c ≠ d := by
    rintro rfl
    exact above hd
  match cs with
  | [] => simp [Date.isDayField, above]
  | [d] => simp [Date.isDayField, other '0' (by decide), other '1' (by decide),
      other '2' (by decide), other '3' (by decide)]
  | _ :: _ :: _ => rfl

/-- The spelling of a date does not begin with a letter. -/
theorem not_isSpelling_of_isLetter {c : Char} {cs : List Char} (h : name.toList = c :: cs)
    (letter : isLetter c = true) : Date.isSpelling name = false := by
  have start : ∃ piece pieces, Text.splitOn '.' (c :: cs) = (c :: piece) :: pieces := by
    rw [Text.splitOn, if_neg]
    · split
      · exact ⟨_, _, rfl⟩
      · exact ⟨_, _, rfl⟩
    · rintro rfl
      exact absurd letter (by decide)
  obtain ⟨piece, pieces, hpieces⟩ := start
  rw [Date.isSpelling, Date.fields?, h, hpieces]
  split
  · rename_i month year hfields
    cases hfields
    simp [isDayField_of_isLetter letter]
  · rfl

/-- Names that definitions may bear are no literals. -/
theorem recognize_reference (h : isReference name = true) (free : isKeyword name = false) :
    recognize name = none := by
  obtain ⟨c, cs, spelled, letter⟩ := toList_of_isReference h
  have other (word : String) (h : word ∈ keywords) : name ≠ word := by
    rintro rfl
    have keyword : isKeyword name = true := by simpa [isKeyword] using h
    rw [free] at keyword
    cases keyword
  have notTrue := other "true" (by decide)
  have notFalse := other "false" (by decide)
  have notVoid := other "void" (by decide)
  have notNow := other "now" (by decide)
  have notVacant := other "vacant" (by decide)
  have notPeople := other "people" (by decide)
  have notDate := not_isSpelling_of_isLetter spelled letter
  have notNumeral : Numeral.isSpelling name.toList = false := by
    rw [spelled, Numeral.isSpelling.eq_2]
    · simp [isDecimalDigit_of_isLetter letter]
    · intro cs h
      rw [(List.cons.inj h).1] at letter
      cases letter
  have notString : isQuoted name.toList = false := by
    rw [spelled, isQuoted]
    have quote : c ≠ Text.quote := by
      rintro rfl
      exact absurd letter (by decide)
    simp [quote]
  rw [recognize_eq]
  simp [accepts, notTrue, notFalse, notVoid, notNow, notVacant, notPeople, notDate, notNumeral,
    notString]

/-- The names of functions are no literals. -/
theorem recognize_primitive (p : Primitive) : recognize p.name = none := by
  cases p <;> decide +kernel

end Kind

theorem Primitive.ofName?_name (p : Primitive) : Primitive.ofName? p.name = some p := by
  cases p <;> decide +kernel

theorem Primitive.name_inj {p q : Primitive} : p.name = q.name ↔ p = q := by
  refine ⟨fun same => ?_, congrArg name⟩
  have found := p.ofName?_name
  rw [same, q.ofName?_name] at found
  exact (Option.some.inj found).symm

end KinQuery
