import KinQuery.Proofs.Evaluation.Literal
import KinQuery.Proofs.Term.Spelling

/-! Values that are spelled by one word or literal. They are read back from their keys, in every
session, so that no two of them share a key. -/
namespace KinQuery

theorem isWordChar_of_isDigit {c : Char} (h : c.isDigit = true) : IsWordChar c := by
  refine ⟨?_, ?_, ?_, ?_⟩
  · rintro rfl
    exact absurd h (by decide)
  · rintro rfl
    exact absurd h (by decide)
  · rintro rfl
    exact absurd h (by decide)
  · rw [Text.isSpace]
    simp only [Bool.or_eq_false_iff, decide_eq_false_iff_not]
    refine ⟨⟨⟨?_, ?_⟩, ?_⟩, ?_⟩ <;> · rintro rfl; exact absurd h (by decide)

theorem isWordChar_of_isLetter {c : Char} (h : isLetter c = true) : IsWordChar c := by
  have other (d : Char) (hd : isLetter d = false) : c ≠ d := by
    rintro rfl
    rw [h] at hd
    cases hd
  refine ⟨other _ (by decide), other _ (by decide), other _ (by decide), ?_⟩
  rw [Text.isSpace]
  simp only [Bool.or_eq_false_iff, decide_eq_false_iff_not]
  refine ⟨⟨⟨?_, ?_⟩, ?_⟩, ?_⟩ <;> exact other _ (by decide)

theorem Text.mem_splitOn (separator : Char) {c : Char} {cs : List Char} (h : c ∈ cs) :
    c = separator ∨ ∃ piece ∈ splitOn separator cs, c ∈ piece := by
  induction cs with
  | nil => cases h
  | cons d cs ih =>
    unfold splitOn
    by_cases same : d = separator
    · rw [if_pos same]
      rcases List.mem_cons.1 h with rfl | h
      · exact .inl same
      · rcases ih h with found | ⟨piece, member, inside⟩
        · exact .inl found
        · exact .inr ⟨piece, List.mem_cons_of_mem _ member, inside⟩
    · rw [if_neg same]
      split
      · rename_i piece pieces hpieces
        rcases List.mem_cons.1 h with rfl | h
        · exact .inr ⟨c :: piece, by simp, by simp⟩
        · rcases ih h with rfl | ⟨other, member, inside⟩
          · exact .inl rfl
          · rw [hpieces] at member
            rcases List.mem_cons.1 member with rfl | member
            · exact .inr ⟨d :: other, by simp, by simp [inside]⟩
            · exact .inr ⟨other, by simp [member], inside⟩
      · rename_i hpieces
        rcases List.mem_cons.1 h with rfl | h
        · exact .inr ⟨[c], by simp, by simp⟩
        · rcases ih h with rfl | ⟨other, member, -⟩
          · exact .inl rfl
          · rw [hpieces] at member
            cases member

theorem isAtomText_of_isReference {name : String} (h : isReference name = true) :
    IsAtomText name.toList := by
  obtain ⟨first, cs, spelled, -⟩ := toList_of_isReference h
  obtain ⟨rest, whole, question⟩ := toList_eq_dropQuestion name
  refine .word (by simp [spelled]) fun c hc => ?_
  rw [whole] at hc
  rcases List.mem_append.1 hc with hc | hc
  · rcases Text.mem_splitOn '-' hc with rfl | ⟨piece, member, inside⟩
    · exact ⟨by decide, by decide, by decide, by decide⟩
    · have word := List.all_eq_true.1 h piece member
      rw [Bool.and_eq_true] at word
      exact isWordChar_of_isLetter (List.all_eq_true.1 word.2 c inside)
  · rw [question c hc]
    exact ⟨by decide, by decide, by decide, by decide⟩

theorem IsAtomText.of_all {cs : List Char} (nonempty : cs ≠ [])
    (h : cs.all (fun c => c ≠ '(' && c ≠ ')' && c ≠ Text.quote && !Text.isSpace c) = true) :
    IsAtomText cs := by
  refine .word nonempty fun c hc => ?_
  have each := List.all_eq_true.1 h c hc
  simp only [Bool.and_eq_true, decide_eq_true_eq, Bool.not_eq_true'] at each
  obtain ⟨⟨⟨opening, closing⟩, quote⟩, space⟩ := each
  exact ⟨opening, closing, quote, space⟩

theorem Numeral.isAtomText_text (n : Numeral) : IsAtomText n.text.toList := by
  obtain ⟨c, cs, digits, -, -⟩ := Numeral.toDigits_eq_cons n.val.natAbs
  have word : ∀ d ∈ Nat.toDigits 10 n.val.natAbs, IsWordChar d := fun d hd =>
    isWordChar_of_isDigit (Text.isDigit_of_mem_toDigits hd)
  rw [Numeral.toList_text]
  refine .word (by simp [digits]) fun d hd => ?_
  rcases List.mem_append.1 hd with hd | hd
  · have minus : d = '-' := by
      split at hd
      · simp at hd
      · simpa using hd
    rw [minus]
    exact ⟨by decide, by decide, by decide, by decide⟩
  · exact word d hd

theorem Date.isAtomText_text (d : Date) : IsAtomText d.text.toList := by
  have dot : IsWordChar '.' := ⟨by decide, by decide, by decide, by decide⟩
  have minus : IsWordChar '-' := ⟨by decide, by decide, by decide, by decide⟩
  have word (n : Nat) : ∀ c ∈ Nat.toDigits 10 n, IsWordChar c := fun c hc =>
    isWordChar_of_isDigit (Text.isDigit_of_mem_toDigits hc)
  have year : ∀ c ∈ (toString d.year).toList, IsWordChar c := by
    by_cases positive : 0 ≤ d.year
    · rw [Date.toList_toString positive]
      exact word _
    · rw [Date.toList_toString_of_neg positive]
      exact List.forall_mem_cons.2 ⟨minus, word _⟩
  rw [Date.toList_text_eq]
  refine .word (by simp) fun c hc => ?_
  simp only [List.mem_append, List.mem_cons] at hc
  rcases hc with hc | rfl | hc | rfl | hc
  · exact word _ c hc
  · exact dot
  · exact word _ c hc
  · exact dot
  · exact year c hc

theorem Primitive.isAtomText_name (p : Primitive) : IsAtomText p.name.toList := by
  cases p <;> exact .of_all (by decide) (by decide)

/-- The mark of a person is a word. -/
theorem isAtomText_mark (id : PersonId) : IsAtomText ("#" ++ toString id).toList := by
  have spelled : ("#" ++ toString id).toList = '#' :: Nat.toDigits 10 id := by
    simp [String.toList_append, Nat.toString_eq_repr]
  rw [spelled]
  refine .word (by simp) (List.forall_mem_cons.2 ⟨?_, fun c hc => ?_⟩)
  · exact ⟨by decide, by decide, by decide, by decide⟩
  · exact isWordChar_of_isDigit (Text.isDigit_of_mem_toDigits hc)

/-! ### Values -/

namespace Value

def IsWord : Value → Prop
  | .list items => items = []
  | .string s => Text.quote ∉ s.toList
  | .date d => d.IsSpellable
  | .person _ => False
  | .function (.primitive _) => True
  | .function _ => False
  | .boolean _ | .numeral _ | .void => True

namespace IsWord
variable {v w : Value}

theorem isAtomText (h : v.IsWord) : IsAtomText v.key.toList := by
  match v, h with
  | .list _, rfl =>
    rw [key, spell]
    exact .of_all (by decide) (by decide)
  | .boolean b, _ =>
    rw [key, spell]
    cases b <;> exact .of_all (by decide) (by decide)
  | .numeral n, _ =>
    rw [key, spell]
    exact n.isAtomText_text
  | .string s, free =>
    rw [key, spell, Kind.toList_stringLiteral]
    exact .literal free
  | .date d, _ =>
    rw [key, spell]
    exact d.isAtomText_text
  | .function (.primitive p), _ =>
    rw [key, spell]
    exact p.isAtomText_name
  | .void, _ =>
    rw [key, spell]
    exact .of_all (by decide) (by decide)

/-- Only persons are marked in keys. -/
theorem not_mark (h : v.IsWord) : v.key.toList.head? ≠ some '#' := by
  match v, h with
  | .list _, rfl =>
    rw [key, spell]
    decide
  | .boolean b, _ =>
    rw [key, spell]
    cases b <;> decide
  | .numeral n, _ =>
    obtain ⟨c, cs, digits, digit, -⟩ := Numeral.toDigits_eq_cons n.val.natAbs
    rw [key, spell, Numeral.toList_text, digits]
    split
    · rintro hc
      cases hc
      exact absurd digit (by decide)
    · simp
  | .string s, _ =>
    rw [key, spell, Kind.toList_stringLiteral]
    simp [Text.quote]
  | .date d, spellable =>
    obtain ⟨c, cs, digits, digit, -⟩ := Numeral.toDigits_eq_cons d.day
    rw [key, spell, Date.toList_text spellable, digits]
    rintro hc
    cases hc
    exact absurd digit (by decide)
  | .function (.primitive p), _ =>
    rw [key, spell]
    cases p <;> decide
  | .void, _ =>
    rw [key, spell]
    decide

/-- The value is that of a literal, or a primitive. -/
theorem literalAnswer_key (h : v.IsWord) (tree : FamilyTree) (today : Date) :
    (∃ kind, Kind.recognize v.key = some kind ∧ literalAnswer kind v.key tree today = .ok v) ∨
      ∃ p, v = .function (.primitive p) := by
  match v, h with
  | .list _, rfl =>
    refine .inl ⟨.list, ?_, ?_⟩
    · rw [key, spell]
      decide +kernel
    · rfl
  | .boolean b, _ =>
    refine .inl ⟨.boolean, ?_, ?_⟩
    · rw [key, spell]
      cases b <;> decide +kernel
    · rw [key, spell]
      cases b <;> rfl
  | .numeral n, _ =>
    have accepted := Kind.accepts_of_recognize (Kind.recognize_numeral n)
    rw [key, spell]
    refine .inl ⟨.numeral, Kind.recognize_numeral n, ?_⟩
    simp [literalAnswer, accepted, Numeral.read_text]
  | .string s, free =>
    have accepted := Kind.accepts_of_recognize (Kind.recognize_string free)
    have inside : unquoted (stringLiteral s) = s := by
      rw [unquoted, Kind.toList_stringLiteral]
      simp
    rw [key, spell]
    exact .inl ⟨.string, Kind.recognize_string free, by simp [literalAnswer, accepted, inside]⟩
  | .date d, spellable =>
    have accepted := Kind.accepts_of_recognize (Kind.recognize_date spellable)
    have notNow : d.text ≠ "now" := by
      intro now
      have spelling := Date.isSpelling_text spellable
      rw [now] at spelling
      exact absurd spelling (by decide +kernel)
    rw [key, spell]
    refine .inl ⟨.date, Kind.recognize_date spellable, ?_⟩
    simp [literalAnswer, accepted, notNow, Date.read?_text spellable]
  | .function (.primitive p), _ => exact .inr ⟨p, rfl⟩
  | .void, _ =>
    refine .inl ⟨.void, ?_, ?_⟩
    · rw [key, spell]
      decide +kernel
    · rfl

/-- The value is read back from its key. -/
theorem atomAnswer_key (h : v.IsWord) (s : Session) : atomAnswer s v.key = .ok v := by
  unfold atomAnswer
  rcases h.literalAnswer_key s.tree.1 s.today with ⟨kind, recognized, answer⟩ | ⟨p, rfl⟩
  · rw [recognized]
    exact answer
  · rw [key, spell, Kind.recognize_primitive, Session.function?, p.ofName?_name]

theorem eq_of_key (h : v.IsWord) (h' : w.IsWord) (same : v.key = w.key) : v = w := by
  let s : Session := { today := ⟨2000, 1, 1, by decide, by decide, by decide, by decide⟩ }
  have read := h.atomAnswer_key s
  rw [same, h'.atomAnswer_key s] at read
  exact (Except.ok.inj read).symm

/-- The name of a primitive spells the primitive alone. -/
theorem eq_primitive_of_key {p : Primitive} (h : v.IsWord) (same : v.key = p.name) :
    v = .function (.primitive p) := by
  have primitive : (Value.function (.primitive p)).IsWord := trivial
  exact h.eq_of_key primitive (by rw [same, key, spell])

/-- A name that parameters may bear is the word of no value but a primitive. -/
theorem eq_primitive (h : v.IsWord) (proper : IsProper v.key) :
    ∃ p, v = .function (.primitive p) := by
  let s : Session := { today := ⟨2000, 1, 1, by decide, by decide, by decide, by decide⟩ }
  rcases h.literalAnswer_key s.tree.1 s.today with ⟨kind, recognized, -⟩ | primitive
  · rw [Kind.recognize_reference proper.1 proper.2] at recognized
    cases recognized
  · exact primitive

/-- A name that parameters may bear, and no primitive does, is the word of no value. -/
theorem key_ne {name : String} (h : v.IsWord) (proper : IsProper name)
    (free : Primitive.ofName? name = none) : v.key ≠ name := by
  rintro rfl
  obtain ⟨p, rfl⟩ := h.eq_primitive proper
  rw [key, spell, p.ofName?_name] at free
  cases free

/-- The words of special forms have no values. -/
theorem ofWord?_key (h : v.IsWord) : SpecialForm.ofWord? v.key = none := by
  let s : Session := { today := ⟨2000, 1, 1, by decide, by decide, by decide, by decide⟩ }
  cases hform : SpecialForm.ofWord? v.key with
  | none => rfl
  | some form =>
    have spelled : form.word = v.key := by simpa using List.find?_some hform
    have read := h.atomAnswer_key s
    rw [← spelled] at read
    have unread : Kind.recognize form.word = none := by cases form <;> decide +kernel
    have unknown : s.function? form.word = none := by cases form <;> rfl
    have undefined : s.definition? form.word = none := rfl
    rw [atomAnswer, unread, unknown, undefined] at read
    cases read

end IsWord
end Value
end KinQuery
