import KinQuery.Proofs.Term.Data
import KinQuery.Proofs.Text.Clip

/-! Values that literals spell, and how they are read back.

Such a value is spelled neatly, as one word or string literal or as an application of `list`; so
its spelling is read as the very term that was written, and no two values are spelled alike. -/
namespace KinQuery

open Text (IsNeat)

variable {v w : Value} {t : Term Value} {parts : List (Term Value)}

theorem Text.isInert_of_bounds {c : Char} (word : IsWordChar c) (low : 33 ≤ c.toNat)
    (high : c.toNat ≤ 126) : IsInert c := by
  refine ⟨word, ?_, ?_⟩
  · rw [isBlank, Bool.eq_false_iff]
    intro blank
    obtain ⟨range, member, above, below⟩ := inRanges_iff.1 blank
    simp only [blankRanges, List.mem_cons, List.not_mem_nil, or_false] at member
    rcases member with rfl | rfl | rfl | rfl | rfl | rfl | rfl | rfl | rfl | rfl <;> omega
  · rintro rfl
    exact absurd low (by decide)

theorem Text.isInert_of_mem_toDigits {c : Char} {n : Nat} (h : c ∈ Nat.toDigits 10 n) :
    IsInert c := by
  have digit := isDigit_of_mem_toDigits h
  obtain ⟨low, high⟩ : 48 ≤ c.toNat ∧ c.toNat ≤ 57 := Char.isDigit_iff_toNat.1 digit
  exact isInert_of_bounds (isWordChar_of_isDigit digit) (by omega) (by omega)

theorem Text.isInert_of_isLetter {c : Char} (h : isLetter c = true) : IsInert c := by
  have bounds := h
  simp only [isLetter, Bool.and_eq_true, decide_eq_true_eq, Char.le_def,
    UInt32.le_iff_toNat_le] at bounds
  have low : 97 ≤ c.toNat := bounds.1
  have high : c.toNat ≤ 122 := bounds.2
  exact isInert_of_bounds (isWordChar_of_isLetter h) (by omega) (by omega)

/-! ### Neat terms -/

/-- The text of the term is neat. -/
def Term.IsNeat (t : Term Value) : Prop :=
  ∃ skeleton literals, Text.IsNeat t.chars skeleton literals

theorem Term.isNeat_parts (nonempty : parts ≠ []) (each : ∀ part ∈ parts, part.IsNeat) :
    ∃ skeleton literals, Text.IsNeat (charsOfParts parts) skeleton literals := by
  induction parts with
  | nil => exact absurd rfl nonempty
  | cons part parts ih =>
    obtain ⟨⟨skeleton, literals, first⟩, others⟩ := List.forall_mem_cons.1 each
    cases parts with
    | nil => exact ⟨skeleton, literals, by simpa [charsOfParts] using first⟩
    | cons next parts =>
      obtain ⟨skeleton', literals', rest⟩ := ih (by simp) others
      have joined : charsOfParts (part :: next :: parts) =
          part.chars ++ ' ' :: charsOfParts (next :: parts) := by
        simp [charsOfParts]
      rw [joined]
      exact ⟨_, _, first.space rest⟩

theorem Term.isNeat_compound (nonempty : parts ≠ []) (each : ∀ part ∈ parts, part.IsNeat) :
    (Term.compound parts).IsNeat := by
  obtain ⟨skeleton, literals, neat⟩ := isNeat_parts nonempty each
  rw [IsNeat, chars_compound]
  exact ⟨_, _, neat.enclosed⟩

theorem Term.isNeat_word {text : String} (nonempty : text.toList ≠ [])
    (inert : ∀ c ∈ text.toList, Text.IsInert c) : (Term.atom text).IsNeat := by
  rw [IsNeat, chars_atom]
  exact ⟨_, _, .word nonempty inert⟩

theorem Term.isNeat_letters {text : String} (nonempty : text.toList ≠ [])
    (letters : text.toList.all isLetter = true) : (Term.atom text).IsNeat :=
  isNeat_word nonempty fun c hc => Text.isInert_of_isLetter (List.all_eq_true.1 letters c hc)

theorem Term.isNeat_of_all {text : String} (nonempty : text.toList ≠ [])
    (plain : text.toList.all (fun c => c ≠ '(' && c ≠ ')' && c ≠ Text.quote && !Text.isSpace c &&
      33 ≤ c.toNat && c.toNat ≤ 126) = true) : (atom text).IsNeat := by
  refine isNeat_word nonempty fun c hc => ?_
  have each := List.all_eq_true.1 plain c hc
  simp only [Bool.and_eq_true, decide_eq_true_eq, Bool.not_eq_true'] at each
  obtain ⟨⟨⟨⟨⟨opening, closing⟩, quote⟩, space⟩, low⟩, high⟩ := each
  exact Text.isInert_of_bounds ⟨opening, closing, quote, space⟩ low high

theorem Term.readQuery_key (bare : t.IsBare) (neat : t.IsNeat) : readQuery t.key = .ok t := by
  obtain ⟨skeleton, literals, neat⟩ := neat
  have neat : Text.IsNeat t.key.toList skeleton literals := neat
  rw [readQuery, if_pos neat.isBalanced, neat.clip, String.ofList_toList, bare.parse_key]

/-! ### Literal values -/

namespace Value

/-- Booleans, numerals, void, strings that no literal would break off and no marker would
confuse, dates in the years that terms can spell, and lists of such values. -/
inductive IsLiteral : Value → Prop
  | boolean (b : Bool) : IsLiteral (.boolean b)
  | numeral (n : Numeral) : IsLiteral (.numeral n)
  | void : IsLiteral .void
  | string {s : String} : Text.quote ∉ s.toList → Text.marker ∉ s.toList → IsLiteral (.string s)
  | date {d : Date} : 1000 ≤ d.year → d.year ≤ 2999 → IsLiteral (.date d)
  | list {items : List Value} : (∀ item ∈ items, IsLiteral item) → IsLiteral (.list items)

theorem expand_of_isWord (word : v.IsWord) : v.expand = .atom v.key := by
  refine expand_of_isAtomic ?_
  match v, word with
  | .list _, rfl | .boolean _, _ | .numeral _, _ | .string _, _ | .date _, _
  | .function (.primitive _), _ | .void, _ => trivial

namespace IsLiteral

/-- A literal value is spelled by a word, or it is a list of literal values. -/
@[elab_as_elim]
theorem induction {motive : Value → Prop}
    (word : ∀ v : Value, v.IsWord → (∀ f, v ≠ .function f) → motive v)
    (list : ∀ item items, (∀ x ∈ item :: items, x.IsLiteral) → (∀ x ∈ item :: items, motive x) →
      motive (.list (item :: items)))
    (literal : v.IsLiteral) : motive v := by
  induction literal with
  | boolean b => exact word _ trivial (by simp)
  | numeral n => exact word _ trivial (by simp)
  | void => exact word _ trivial (by simp)
  | @string s free unmarked => exact word (.string s) free (by simp)
  | @date d first last => exact word (.date d) ⟨first, last⟩ (by simp)
  | @list items each ih =>
    cases items with
    | nil => exact word (.list []) rfl (by simp)
    | cons item items => exact list item items each ih

theorem isWord_or_list (literal : v.IsLiteral) :
    v.IsWord ∨ ∃ item items, v = .list (item :: items) ∧ ∀ x ∈ item :: items, x.IsLiteral :=
  literal.induction (fun _ word _ => .inl word) fun item items each _ =>
    .inr ⟨item, items, rfl, each⟩

/-- Persons apart, values are spelled in keys as in terms. -/
theorem term_eq_key (literal : v.IsLiteral) : v.term = v.key := by
  induction literal with
  | @list items each ih =>
    cases items with
    | nil => simp [term, key, spell]
    | cons item items =>
      have same : (item :: items).map (spell personTerm) = (item :: items).map (spell personKey) :=
        List.map_congr_left ih
      simp only [List.map_cons, List.cons.injEq] at same
      simp only [term, key, spell, spellItems_eq_map, same]
  | _ => simp [term, key, spell]

theorem isFormed (literal : v.IsLiteral) : v.IsFormed := by
  induction literal with
  | list each ih => exact isFormed_list.2 ih
  | _ => simp [IsFormed]

theorem legible (literal : v.IsLiteral) : v.Obeys .legible := by
  induction literal with
  | list each ih => exact obeys_list.2 ih
  | string free unmarked => simpa [Obeys, Vocabulary.legible] using free
  | date first last => simpa [Obeys, Vocabulary.legible] using ⟨first, last⟩
  | _ => simp [Obeys, Vocabulary.legible]

theorem isBare (literal : v.IsLiteral) : v.expand.IsBare :=
  isBare_expand literal.isFormed literal.legible

theorem isNeat_numeral (n : Numeral) : (Term.atom n.text).IsNeat := by
  have spelled := n.toList_text
  refine Term.isNeat_word (by simp [spelled, Nat.toDigits_ne_nil]) fun c hc => ?_
  rw [spelled] at hc
  rcases List.mem_append.1 hc with hc | hc
  · have minus : c = '-' := by
      split at hc
      · simp at hc
      · simpa using hc
    rw [minus]
    exact ⟨⟨by decide, by decide, by decide, by decide⟩, by decide, by decide⟩
  · exact Text.isInert_of_mem_toDigits hc

theorem isNeat_date {d : Date} (spellable : d.IsSpellable) : (Term.atom d.text).IsNeat := by
  have dot : Text.IsInert '.' :=
    ⟨⟨by decide, by decide, by decide, by decide⟩, by decide, by decide⟩
  refine Term.isNeat_word (by simp [Date.toList_text spellable]) fun c hc => ?_
  rw [Date.toList_text spellable] at hc
  simp only [List.mem_append, List.mem_cons] at hc
  rcases hc with hc | rfl | hc | rfl | hc
  · exact Text.isInert_of_mem_toDigits hc
  · exact dot
  · exact Text.isInert_of_mem_toDigits hc
  · exact dot
  · exact Text.isInert_of_mem_toDigits hc

theorem isNeat (literal : v.IsLiteral) : v.expand.IsNeat := by
  induction literal with
  | boolean b =>
    rw [expand_of_isWord (v := .boolean b) trivial, key, spell]
    cases b
    · exact Term.isNeat_letters (by decide) (by decide)
    · exact Term.isNeat_letters (by decide) (by decide)
  | numeral n =>
    rw [expand_of_isWord (v := .numeral n) trivial, key, spell]
    exact isNeat_numeral n
  | void =>
    rw [expand_of_isWord (v := .void) trivial, key, spell]
    exact Term.isNeat_letters (by decide) (by decide)
  | @string s free unmarked =>
    rw [expand_of_isWord (v := .string s) free, key, spell, Term.IsNeat, Term.chars_atom,
      Kind.toList_stringLiteral]
    exact ⟨_, _, .literal free unmarked⟩
  | @date d first last =>
    rw [expand_of_isWord (v := .date d) ⟨first, last⟩, key, spell]
    exact isNeat_date ⟨first, last⟩
  | @list items each ih =>
    cases items with
    | nil =>
      rw [expand_of_isWord (v := .list []) rfl, key, spell]
      exact Term.isNeat_letters (by decide) (by decide)
    | cons item items =>
      obtain ⟨first, rest⟩ := List.forall_mem_cons.1 ih
      rw [expand, expandItems_eq_map]
      refine Term.isNeat_compound (by simp) (List.forall_mem_cons.2 ⟨?_, ?_⟩)
      · exact Term.isNeat_letters (by decide) (by decide)
      · refine List.forall_mem_cons.2 ⟨first, fun part hpart => ?_⟩
        obtain ⟨other, member, rfl⟩ := List.mem_map.1 hpart
        exact rest other member

/-- What is written is read back. -/
theorem readQuery (literal : v.IsLiteral) : readQuery v.term = .ok v.expand := by
  rw [literal.term_eq_key, ← v.key_expand]
  exact Term.readQuery_key literal.isBare literal.isNeat

theorem isData (literal : v.IsLiteral) : v.IsData := by
  induction literal with
  | boolean b => exact .boolean b
  | numeral n => exact .numeral n
  | void => exact .void
  | string free unmarked => exact .string free
  | @date d first last => exact .date d
  | list each ih => exact .list ih

theorem eq_of_same (literal : v.IsLiteral) : ∀ w : Value, v.same w = true → v = w := by
  induction literal with
  | list each ih =>
    intro w same
    cases w with
    | list others =>
      rw [Value.same, sameItems_iff, List.forall₂_iff_zip] at same
      have equal : List.Forall₂ Eq _ others := List.forall₂_iff_zip.2
        ⟨same.1, fun {a b} inside => ih a (List.of_mem_zip inside).1 b (same.2 inside)⟩
      rw [List.forall₂_eq_eq_eq] at equal
      rw [equal]
    | _ => simp [Value.same] at same
  | _ =>
    intro w same
    cases w <;> simp_all [Value.same]

/-- No two values are spelled alike. -/
theorem eq_of_key (literal : v.IsLiteral) (literal' : w.IsLiteral) (same : v.key = w.key) :
    v = w :=
  literal.eq_of_same w (literal.isData.same_of_key literal'.isData same)

end IsLiteral
end Value
end KinQuery
