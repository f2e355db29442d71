import KinQuery.Proofs.Term.Nesting

/-! What clipping keeps of a balanced text: its balance, its literals and its tokens.

The literals of a text are found by reading it from left to right, from each quote to the next.
Tidying drops and sets blanks outside of literals only, so it finds the same literals in the same
order, verbatim; and blanks that separate terms separate the same tokens before and after. -/
namespace KinQuery

open Text (Spot Edge Closed quote marker isBlank isSpace isBalanced outside tidy clip)

variable {cs body : List Char} {c : Char} {literals others : List (List Char)}

/-- The string literals of a text in order, with their quotes. -/
inductive Text.Quotes : List Char → List (List Char) → Prop
  | nil : Quotes [] []
  | char {c : Char} {cs : List Char} {literals : List (List Char)} :
      c ≠ quote → Quotes cs literals → Quotes (c :: cs) literals
  | literal {body cs : List Char} {literals : List (List Char)} : quote ∉ body →
      Quotes cs literals →
      Quotes (quote :: (body ++ quote :: cs)) ((quote :: (body ++ [quote])) :: literals)

namespace Text

theorem Closed.exists_quotes (closed : Closed cs) : ∃ literals, Quotes cs literals := by
  induction closed with
  | nil => exact ⟨[], .nil⟩
  | char other _ ih =>
    obtain ⟨literals, quotes⟩ := ih
    exact ⟨literals, .char other quotes⟩
  | literal free _ ih =>
    obtain ⟨literals, quotes⟩ := ih
    exact ⟨_, .literal free quotes⟩

namespace Quotes

/-- The literals of a text are those that clipping lifts out of it. -/
theorem lift (quotes : Quotes cs literals) : (Text.lift cs).literals = literals := by
  induction quotes with
  | nil => rfl
  | char other _ ih => rw [IsPiece.lift_char other, ih]
  | literal free _ ih => rw [lift_literal free, ih]

theorem unique (quotes : Quotes cs literals) (quotes' : Quotes cs others) : literals = others :=
  quotes.lift.symm.trans quotes'.lift

/-- A space that is set before a part is outside of literals. -/
theorem lead (quotes : Quotes cs literals) (edge : Edge) (c : Char) :
    Quotes (edge.lead c ++ cs) literals := by
  rw [Edge.lead]
  split
  · exact .char (by decide) quotes
  · exact quotes

/-- Tidying keeps the literals, whatever the text began after. -/
theorem tidy (quotes : Quotes cs literals) (edge : Edge) :
    Quotes (tidy (.text edge) cs) literals := by
  induction quotes generalizing edge with
  | nil => exact .nil
  | @char c cs literals other _ ih =>
    obtain ⟨edge', next⟩ := text_next other edge
    rw [tidy_cons, next]
    cases blank : isBlank c with
    | true =>
      rw [Spot.emit_blank blank]
      exact ih edge'
    | false =>
      rw [Spot.emit_part blank, List.append_assoc]
      exact lead (.char other (ih edge')) edge c
  | @literal body cs literals free _ ih =>
    rw [tidy_quote, tidy_body free]
    exact lead (.literal free (ih .part)) edge quote

end Quotes

/-- Clipping keeps the literals of a balanced text, and adds none. -/
theorem quotes_clip_iff (balanced : isBalanced cs = true) :
    Quotes (clip cs) literals ↔ Quotes cs literals := by
  obtain ⟨known, quotes⟩ := (closed_of_isBalanced balanced).exists_quotes
  have kept : Quotes (clip cs) known := by
    rw [clip_of_isBalanced balanced]
    exact quotes.tidy .snug
  constructor
  · intro found
    rwa [found.unique kept]
  · intro found
    rwa [found.unique quotes]

end Text

/-- A balanced text whose blanks separate terms is read as its clipped spelling is. -/
theorem Term.parse_clip {V : Type} (balanced : isBalanced cs = true)
    (spaced : ∀ c ∈ outside cs, isBlank c = true → isSpace c = true) :
    (Term.parse (.ofList (clip cs)) : Except Position (Term V)).toOption =
      (Term.parse (.ofList cs)).toOption := by
  have unmarked := Text.marker_not_mem_of_balancedFrom balanced
  have tokens := Reading.cut_clip (Text.closed_of_isBalanced balanced) unmarked spaced
  rw [Term.parse_toOption, Term.parse_toOption, String.toList_ofList, String.toList_ofList, tokens]

/-- Clipping changes nothing but blanks that do not matter. The clipped spelling of a balanced
text is balanced and is its own clipped spelling; both have the same literals, verbatim and in
order; and if the blanks of the text outside of literals are those that separate terms, both are
read as the same term, or neither is read. -/
theorem Text.clip_insignificant (balanced : isBalanced cs = true) :
    isBalanced (clip cs) = true ∧ clip (clip cs) = clip cs ∧
      (∃! literals, Quotes cs literals) ∧
      (∀ literals, Quotes (clip cs) literals ↔ Quotes cs literals) ∧
      ((∀ c ∈ outside cs, isBlank c = true → isSpace c = true) →
        (Term.parse (.ofList (clip cs)) : Except Position (Term Value)).toOption =
          (Term.parse (.ofList cs)).toOption) := by
  refine ⟨isBalanced_clip balanced, clip_clip balanced, ?_, fun _ => quotes_clip_iff balanced,
    Term.parse_clip balanced⟩
  obtain ⟨literals, quotes⟩ := (closed_of_isBalanced balanced).exists_quotes
  exact ⟨literals, quotes, fun _ other => other.unique quotes⟩

/-- Blanks at both ends, inside of parentheses, between parts and inside of a literal. -/
theorem Text.clip_insignificant_padded :
    let cs := "\t(  f  ' ('\r\n x(  )) ".toList
    isBalanced cs = true ∧ (∀ c ∈ outside cs, isBlank c = true → isSpace c = true) ∧
      clip cs = "(f ' (' x())".toList ∧ Quotes (clip cs) ["' ('".toList] ∧
      (Term.parse "(f ' (' x())" : Except Position (Term Value)).toOption =
        (Term.parse (.ofList cs)).toOption := by
  intro cs
  have balanced : isBalanced cs = true := by decide
  have spaced : ∀ c ∈ outside cs, isBlank c = true → isSpace c = true :=
    List.forall_iff_forall_mem.1 (by decide)
  have clipped : clip cs = "(f ' (' x())".toList := by decide
  obtain ⟨-, -, ⟨literals, quotes, -⟩, same, read⟩ := clip_insignificant balanced
  have known : literals = ["' ('".toList] := by
    rw [← quotes.lift]
    decide
  refine ⟨balanced, spaced, clipped, (same _).2 (known ▸ quotes), ?_⟩
  rw [← read spaced, clipped, String.ofList_toList]

end KinQuery
