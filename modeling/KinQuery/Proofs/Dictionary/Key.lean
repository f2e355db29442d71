import KinQuery.Dictionary
import Mathlib.Data.List.DropRight

/-! Normal keys: to take a key apart and to put its terms together again changes nothing but
the blanks around the terms, and that only once. -/
namespace KinQuery

namespace Text

theorem mem_of_mem_trim {c : Char} {cs : List Char} (h : c ∈ trim cs) : c ∈ cs := by
  have kept : c ∈ trimStart cs := by
    simpa using (List.dropWhile_sublist isBlank).subset (List.mem_reverse.1 h)
  exact (List.dropWhile_sublist isBlank).subset kept

theorem trimEnd_trimEnd (cs : List Char) : trimEnd (trimEnd cs) = trimEnd cs :=
  List.rdropWhile_idempotent isBlank cs

/-- Blanks dropped at the end uncover none at the beginning. -/
theorem trimStart_trim (cs : List Char) : trimStart (trim cs) = trim cs := by
  rw [trimStart, List.dropWhile_eq_self_iff]
  intro nonempty
  have isPrefix : trim cs <+: trimStart cs := List.rdropWhile_prefix isBlank _
  have shown : 0 < (trimStart cs).length := nonempty.trans_le isPrefix.length_le
  have head := isPrefix.getElem nonempty
  rw [head]
  exact (List.dropWhile_eq_self_iff.1 (List.dropWhile_idempotent isBlank cs)) shown

theorem trim_trim (cs : List Char) : trim (trim cs) = trim cs := by
  rw [trim, trimStart_trim, trim, trimEnd_trimEnd]

theorem trimmed_trimmed (s : String) : trimmed (trimmed s) = trimmed s := by
  simp [trimmed, trim_trim]

/-! ### Splitting and joining -/

variable {separator : Char}

theorem splitOn_ne_nil (separator : Char) (cs : List Char) : splitOn separator cs ≠ [] := by
  cases cs with
  | nil => simp [splitOn]
  | cons c cs =>
    unfold splitOn
    split
    · simp
    · split <;> simp

theorem separator_notMem_of_mem_splitOn {cs piece : List Char} (h : piece ∈ splitOn separator cs) :
    separator ∉ piece := by
  induction cs generalizing piece with
  | nil =>
    simp only [splitOn, List.mem_singleton] at h
    simp [h]
  | cons c cs ih =>
    unfold splitOn at h
    split at h
    · rcases List.mem_cons.1 h with rfl | h
      · simp
      · exact ih h
    · rename_i other
      split at h
      · rename_i first pieces hsplit
        rw [hsplit] at ih
        rcases List.mem_cons.1 h with rfl | h
        · have free : separator ∉ first := ih List.mem_cons_self
          simpa [free] using Ne.symm other
        · exact ih (List.mem_cons_of_mem _ h)
      · simp only [List.mem_singleton] at h
        simpa [h] using Ne.symm other

theorem mem_of_mem_splitOn {cs piece : List Char} (h : piece ∈ splitOn separator cs) {c : Char}
    (hc : c ∈ piece) : c ∈ cs := by
  induction cs generalizing piece with
  | nil =>
    simp only [splitOn, List.mem_singleton] at h
    simp [h] at hc
  | cons d cs ih =>
    unfold splitOn at h
    split at h
    · rcases List.mem_cons.1 h with rfl | h
      · simp at hc
      · exact List.mem_cons_of_mem _ (ih h hc)
    · split at h
      · rename_i first pieces hsplit
        rw [hsplit] at ih
        rcases List.mem_cons.1 h with rfl | h
        · rcases List.mem_cons.1 hc with rfl | hc
          · exact List.mem_cons_self
          · exact List.mem_cons_of_mem _ (ih List.mem_cons_self hc)
        · exact List.mem_cons_of_mem _ (ih (List.mem_cons_of_mem _ h) hc)
      · rw [List.mem_singleton.1 h, List.mem_singleton] at hc
        exact hc ▸ List.mem_cons_self

theorem splitOn_append {piece : List Char} (free : separator ∉ piece) (cs : List Char) :
    splitOn separator (piece ++ separator :: cs) = piece :: splitOn separator cs := by
  induction piece with
  | nil => simp [splitOn]
  | cons c piece ih =>
    simp only [List.mem_cons, not_or] at free
    simp [splitOn, Ne.symm free.1, ih free.2]

theorem splitOn_of_notMem {piece : List Char} (free : separator ∉ piece) :
    splitOn separator piece = [piece] := by
  induction piece with
  | nil => rfl
  | cons c piece ih =>
    simp only [List.mem_cons, not_or] at free
    simp [splitOn, Ne.symm free.1, ih free.2]

theorem splitOn_intercalate {pieces : List (List Char)} (nonempty : pieces ≠ [])
    (free : ∀ piece ∈ pieces, separator ∉ piece) :
    splitOn separator ([separator].intercalate pieces) = pieces := by
  induction pieces with
  | nil => exact absurd rfl nonempty
  | cons piece pieces ih =>
    obtain ⟨first, rest⟩ := List.forall_mem_cons.1 free
    cases pieces with
    | nil => simpa using splitOn_of_notMem first
    | cons next pieces =>
      have joined : [separator].intercalate (piece :: next :: pieces) =
          piece ++ separator :: [separator].intercalate (next :: pieces) := by
        simp
      rw [joined, splitOn_append first, ih (by simp) rest]

end Text

namespace Dictionary

theorem toList_normalKey (key : String) :
    (normalKey key).toList = [','].intercalate ((Text.splitOn ',' key.toList).map Text.trim) := by
  simp [normalKey, keyTerms, Function.comp_def]

theorem splitOn_normalKey (key : String) :
    Text.splitOn ',' (normalKey key).toList = (Text.splitOn ',' key.toList).map Text.trim := by
  rw [toList_normalKey, Text.splitOn_intercalate]
  · simpa using Text.splitOn_ne_nil ',' key.toList
  · intro piece hpiece
    obtain ⟨whole, hwhole, rfl⟩ := List.mem_map.1 hpiece
    exact fun h => Text.separator_notMem_of_mem_splitOn hwhole (Text.mem_of_mem_trim h)

@[simp] theorem keyTerms_normalKey (key : String) : keyTerms (normalKey key) = keyTerms key := by
  simp [keyTerms, splitOn_normalKey, Text.trim_trim]

@[simp] theorem normalKey_normalKey (key : String) : normalKey (normalKey key) = normalKey key := by
  rw [normalKey, keyTerms_normalKey, normalKey]

end Dictionary
end KinQuery
