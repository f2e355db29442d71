import KinQuery.Proofs.Term.Nesting
import KinQuery.Proofs.Text.Script

/-! Scripts and the terms they are cut into.

The terms of a script, with spaces between them, have the tokens of the script. So between
parentheses the one is read as the other. -/
namespace KinQuery

open Text (Closed Plain Scattered clip quote marker outside isBlank isSpace isBalanced splitTerms)
open Reading (joined)

variable {cs : List Char} {chunks : List (List Char)} {script : String}

theorem Reading.cut_blanks (blank : ∀ c ∈ cs, isBlank c = true)
    (spaced : ∀ c ∈ cs, isBlank c = true → isSpace c = true) (ds : List Char) :
    (text []).cut (cs ++ ds) = (text []).cut ds := by
  induction cs with
  | nil => rfl
  | cons c cs ih =>
    obtain ⟨first, rest⟩ := List.forall_mem_cons.1 blank
    obtain ⟨here, others⟩ := List.forall_mem_cons.1 spaced
    rw [List.cons_append, cut_space (here first), ih rest others]
    simp [pending]

/-- No word goes on into a text that begins with a blank, if its blanks separate terms. -/
theorem Reading.stops_of_blank (first : ∀ c ∈ cs.head?, isBlank c = true)
    (spaced : ∀ c ∈ outside cs, isBlank c = true → isSpace c = true) : Stops cs := by
  intro c hc word
  obtain ⟨rest, rfl⟩ := List.head?_eq_some_iff.1 hc
  have blank := first c rfl
  have member : c ∈ outside (c :: rest) := by
    rw [outside, Text.outsideFrom_other (Text.ne_of_isBlank blank Text.isBlank_quote)]
    exact List.mem_cons_self
  have space := spaced c member blank
  rw [word.2.2.2] at space
  cases space

theorem Reading.cut_append_space {front seen : List Char}
    (ends : (text []).after front = .text seen) (cs : List Char) :
    (text []).cut (front ++ ' ' :: cs) = joined ((text []).cut front) ((text []).cut cs) := by
  have stops : Stops (' ' :: cs) := by
    rintro _ ⟨⟩ word
    exact absurd word.2.2.2 (by decide)
  rw [cut_append ends (.inr stops), cut_space rfl]
  simp [pending]

/-- The pieces of a text, clipped and with spaces between them, have the tokens of the text. -/
theorem Text.Scattered.cut_eq (scattered : Scattered chunks cs) (unmarked : marker ∉ cs)
    (spaced : ∀ c ∈ outside cs, isBlank c = true → isSpace c = true) :
    (Reading.text []).cut ([' '].intercalate (chunks.map clip)) = (Reading.text []).cut cs := by
  induction scattered with
  | @nil cs blank =>
    rw [outside_of_free (free_of_blanks blank)] at spaced
    have empty := Reading.cut_blanks blank spaced []
    rw [List.append_nil] at empty
    rw [empty]
    rfl
  | @cons gap piece rest chunks blank closed ends scattered ih =>
    rw [(closed_of_blanks blank |>.append closed).outside_append,
      (closed_of_blanks blank).outside_append, outside_of_free (free_of_blanks blank)] at spaced
    simp only [List.mem_append, or_imp, forall_and] at spaced
    simp only [List.mem_append, not_or] at unmarked
    obtain ⟨⟨spacedGap, spacedPiece⟩, spacedRest⟩ := spaced
    obtain ⟨seen, outer⟩ := Reading.after_of_closed closed []
    have apart : seen = [] ∨ Reading.Stops rest := by
      rcases ends with last | first
      · rw [Reading.after_of_closing closed last] at outer
        cases outer
        exact .inl rfl
      · exact .inr (Reading.stops_of_blank first spacedRest)
    have whole : (Reading.text []).cut (gap ++ piece ++ rest) =
        joined ((Reading.text []).cut piece) ((Reading.text []).cut rest) := by
      rw [List.append_assoc, Reading.cut_blanks blank spacedGap, Reading.cut_append outer apart]
    have kept := Reading.cut_clip closed unmarked.1.2 spacedPiece
    obtain ⟨tokens, hcut⟩ := Reading.exists_cut outer
    obtain ⟨seen', outer'⟩ := Reading.after_of_cut (kept.trans hcut)
    rw [whole, ← ih unmarked.2 spacedRest, ← kept]
    cases chunks with
    | nil =>
      rw [List.map_singleton, List.intercalate_singleton]
      exact (Reading.joined_nil _).symm
    | cons next chunks =>
      have spaced : [' '].intercalate ((piece :: next :: chunks).map clip) =
          clip piece ++ ' ' :: [' '].intercalate ((next :: chunks).map clip) := by
        simp
      rw [spaced, Reading.cut_append_space outer']

/-- The terms of a script, with spaces between them, have the tokens of the script. -/
theorem Text.cut_splitTerms (unmarked : marker ∉ script.toList)
    (plain : Plain .text script.toList)
    (spaced : ∀ c ∈ outside script.toList, isBlank c = true → isSpace c = true)
    {pieces : List String} (split : splitTerms script = .ok pieces) :
    (Reading.text []).cut (" ".intercalate pieces).toList =
      (Reading.text []).cut script.toList := by
  obtain ⟨chunks, rfl, scattered⟩ := scattered_of_splitTerms plain split
  have joined : (" ".intercalate ((chunks.map clip).map String.ofList)).toList =
      [' '].intercalate (chunks.map clip) := by
    simp [String.toList_intercalate, Function.comp_def]
  rw [joined]
  exact scattered.cut_eq unmarked spaced

/-- A script without comments and markers, all of whose blanks separate terms, can be cut into
terms exactly if it is balanced; and the terms, with spaces between them, are read between
parentheses as the script is. -/
theorem Text.splitTerms_parse (unmarked : marker ∉ script.toList)
    (plain : ∀ c ∈ outside script.toList, c ≠ ';' ∧ (isBlank c = true → isSpace c = true)) :
    (splitTerms script).isOk = isBalanced script.toList ∧
      ∀ pieces, splitTerms script = .ok pieces → ∃ t : Term Value,
        Term.parse ("(" ++ " ".intercalate pieces ++ ")") = .ok t ∧
        Term.parse ("(" ++ script ++ ")") = .ok t := by
  have uncommented : Plain .text script.toList := fun c hc => (plain c hc).1
  have balance := isOk_splitTerms unmarked uncommented
  refine ⟨balance, fun pieces split => ?_⟩
  rw [split] at balance
  obtain ⟨t, read⟩ := (Term.isBalanced_iff_parse_enclosed (V := Value) unmarked).1 balance.symm
  have same : (Term.parse ("(" ++ " ".intercalate pieces ++ ")") : Except _ (Term Value)).toOption =
      (Term.parse ("(" ++ script ++ ")")).toOption := by
    rw [Term.parse_enclosed_toOption, Term.parse_enclosed_toOption,
      cut_splitTerms unmarked uncommented (fun c hc => (plain c hc).2) split]
  rw [read] at same
  exact ⟨t, eq_ok_of_toOption same, read⟩

/-- An application with a semicolon in a literal, a word that touches it, and another
application. -/
theorem Text.splitTerms_parse_touching :
    let script := "(f  ' ;(' )b\n( c )"
    marker ∉ script.toList ∧
      (∀ c ∈ outside script.toList, c ≠ ';' ∧ (isBlank c = true → isSpace c = true)) ∧
      splitTerms script = .ok ["(f ' ;(')", "b", "(c)"] ∧ ∃ t : Term Value,
        Term.parse ("(" ++ " ".intercalate ["(f ' ;(')", "b", "(c)"] ++ ")") = .ok t ∧
        Term.parse ("(" ++ script ++ ")") = .ok t := by
  intro script
  have unmarked : marker ∉ script.toList := by decide
  have plain : ∀ c ∈ outside script.toList, c ≠ ';' ∧ (isBlank c = true → isSpace c = true) :=
    List.forall_iff_forall_mem.1 (by decide)
  have split : splitTerms script = .ok ["(f ' ;(')", "b", "(c)"] := by decide
  exact ⟨unmarked, plain, split, (splitTerms_parse unmarked plain).2 _ split⟩

end KinQuery
