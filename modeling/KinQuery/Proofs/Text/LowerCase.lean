import KinQuery.Text.LowerCase

/-! Small letters on either side of a space. A capital sigma looks for letters within its own word
alone, so what stands beyond a space has no say in how it is written. -/
namespace KinQuery.Text

variable {before cs ds : List Char}

theorem isCaseIgnorable_space : isCaseIgnorable ' ' = false := by decide +kernel

theorem isCased_space : isCased ' ' = false := by decide +kernel

theorem lowerChar_space : lowerChar ' ' = ' ' := by decide

/-- No letter is looked for beyond a space. -/
theorem casedNext_append_space (cs ds : List Char) :
    casedNext (cs ++ ' ' :: ds) = casedNext cs := by
  induction cs with
  | nil => simp [casedNext, isCaseIgnorable_space, isCased_space]
  | cons c cs ih =>
    unfold casedNext at ih ⊢
    rw [List.cons_append, List.dropWhile_cons, List.dropWhile_cons]
    cases isCaseIgnorable c with
    | true => exact ih
    | false => rfl

theorem lowerAfter_append_space (before cs ds : List Char) :
    lowerAfter (cs ++ ' ' :: before) ds = lowerAfter cs ds := by
  induction ds generalizing cs with
  | nil => rfl
  | cons d ds ih =>
    have rest := ih (d :: cs)
    rw [List.cons_append] at rest
    rw [lowerAfter, lowerAfter, casedNext_append_space, rest]

theorem lowerAfter_space (before cs ds : List Char) :
    lowerAfter before (cs ++ ' ' :: ds) = lowerAfter before cs ++ ' ' :: lowerAfter [] ds := by
  induction cs generalizing before with
  | nil =>
    have alone := lowerAfter_append_space before [] ds
    rw [List.nil_append] at alone
    rw [List.nil_append, lowerAfter, lowerAfter, alone, if_neg (by decide), if_neg (by decide),
      lowerChar_space]
    rfl
  | cons c cs ih =>
    rw [List.cons_append, lowerAfter, lowerAfter, casedNext_append_space, ih, List.append_assoc]

/-- Two words with a space between are each put in small letters. -/
theorem lowerCase_append_space (a b : String) :
    lowerCase (a ++ " " ++ b) = lowerCase a ++ " " ++ lowerCase b := by
  have words : (a ++ " " ++ b).toList = a.toList ++ ' ' :: b.toList := by simp
  rw [lowerCase, words, lowerAfter_space]
  apply String.toList_injective
  simp [lowerCase]

/-- Two words are neither of them alone. -/
theorem lowerCase_append_space_ne (a b : String) :
    lowerCase (a ++ " " ++ b) ≠ lowerCase a ∧ lowerCase (a ++ " " ++ b) ≠ lowerCase b := by
  have lengths := congrArg String.length (lowerCase_append_space a b)
  have space : " ".length = 1 := rfl
  rw [String.length_append, String.length_append, space] at lengths
  constructor
  · intro same
    rw [same] at lengths
    omega
  · intro same
    rw [same] at lengths
    omega

/-- Only the empty text becomes empty. -/
theorem isEmpty_lowerCase {s : String} (h : s ≠ "") : (lowerCase s).isEmpty = false := by
  cases hs : s.toList with
  | nil => exact absurd (String.toList_eq_nil_iff.1 hs) h
  | cons c cs =>
    have nonempty : lowerAfter [] (c :: cs) ≠ [] := by
      rw [lowerAfter]
      split
      · simp
      · split <;> simp
    rw [lowerCase, hs, ← Bool.not_eq_true, String.isEmpty_iff]
    simpa [String.ofList_eq_empty_iff] using nonempty

end KinQuery.Text
