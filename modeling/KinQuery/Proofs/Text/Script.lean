import KinQuery.Proofs.Text.Closed
import KinQuery.Text.Script

/-! How a script is cut into terms.

A character that is no blank, no comment and no closing parenthesis is added to the current term
at any depth. A script without comments can be cut exactly if it is balanced, and then its terms
are pieces of it in order, with nothing but blanks between them. -/
namespace KinQuery.Text

variable {cs ds seen : List Char} {c : Char} {depth : Nat} {within : Within}
  {pieces : List (List Char)}

/-! ### One character -/

/-- The depth after a character that is added to a term. -/
def deeper (depth : Nat) (c : Char) : Nat :=
  if c = '(' then depth + 1 else depth

/-- What a script stands in the middle of after a character outside of literals. -/
def entered (c : Char) : Within :=
  if c = quote then .literal else .text

/-- What a script stands in the middle of after a character inside of a literal. -/
def left (c : Char) : Within :=
  if c = quote then .text else .literal

@[simp] theorem entered_ne_comment (c : Char) : entered c ≠ .comment := by
  rw [entered]
  split <;> decide

@[simp] theorem left_ne_comment (c : Char) : left c ≠ .comment := by
  rw [left]
  split <;> decide

theorem splitInside_literal :
    splitInside depth seen .literal (c :: cs) = splitInside depth (c :: seen) (left c) cs := rfl

theorem splitInside_comment :
    splitInside depth seen .comment (c :: cs) =
      splitInside depth seen (if c = '\n' then .text else .comment) cs := rfl

theorem splitInside_semicolon :
    splitInside depth seen .text (';' :: cs) = splitInside depth seen .comment cs := by
  simp [splitInside]

theorem ne_semicolon_of_isBlank (blank : isBlank c = true) : c ≠ ';' :=
  ne_of_isBlank blank rfl

theorem splitInside_blank_none (blank : isBlank c = true) :
    splitInside 0 [] .text (c :: cs) = splitInside 0 [] .text cs := by
  simp [splitInside, blank, ne_semicolon_of_isBlank blank, ne_of_isBlank blank isBlank_quote]

theorem splitInside_blank_some (blank : isBlank c = true) (nonempty : seen ≠ []) :
    splitInside 0 seen .text (c :: cs) =
      (splitInside 0 [] .text cs).map (clip seen.reverse :: ·) := by
  simp [splitInside, blank, nonempty, ne_semicolon_of_isBlank blank,
    ne_of_isBlank blank isBlank_quote]

theorem splitInside_blank_deep (blank : isBlank c = true) :
    splitInside (depth + 1) seen .text (c :: cs) =
      splitInside (depth + 1) (c :: seen) .text cs := by
  simp [splitInside, ne_semicolon_of_isBlank blank, ne_of_isBlank blank isBlank_quote,
    ne_of_isBlank blank isBlank_opening, ne_of_isBlank blank isBlank_closing]


theorem splitInside_closing_one :
    splitInside 1 seen .text (')' :: cs) =
      (splitInside 0 [] .text cs).map (clip (')' :: seen).reverse :: ·) := by
  simp [splitInside, quote]

theorem splitInside_closing_deep :
    splitInside (depth + 2) seen .text (')' :: cs) =
      splitInside (depth + 1) (')' :: seen) .text cs := by
  simp [splitInside, quote]

/-- Every other character is added to the current term. -/
theorem splitInside_part (comment : c ≠ ';') (part : isBlank c = false) (closing : c ≠ ')') :
    splitInside depth seen .text (c :: cs) =
      splitInside (deeper depth c) (c :: seen) (entered c) cs := by
  by_cases quoted : c = quote
  · subst quoted
    simp [splitInside, deeper, entered, comment, show quote ≠ '(' by decide]
  · by_cases opening : c = '('
    · subst opening
      simp [splitInside, deeper, entered, quoted]
    · simp [splitInside, deeper, entered, comment, quoted, part, opening, closing]

theorem splitInside_nil (outer : within ≠ .literal) :
    splitInside depth seen within [] =
      if depth = 0 then .ok (if (trim seen.reverse).isEmpty then [] else [clip seen.reverse])
      else .error (.unterminated (trim seen.reverse)) := by
  cases within with
  | text => rfl
  | literal => exact absurd rfl outer
  | comment => rfl

/-- What a character outside of literals and comments does, at a depth. -/
inductive Turn : Nat → Char → Prop
  | semicolon {depth : Nat} : Turn depth ';'
  | gap {c : Char} : isBlank c = true → Turn 0 c
  | blank {depth : Nat} {c : Char} : isBlank c = true → Turn (depth + 1) c
  | unbalanced : Turn 0 ')'
  | last : Turn 1 ')'
  | closing {depth : Nat} : Turn (depth + 2) ')'
  | part {depth : Nat} {c : Char} : c ≠ ';' → isBlank c = false → c ≠ ')' → Turn depth c

theorem turn (depth : Nat) (c : Char) : Turn depth c := by
  by_cases comment : c = ';'
  · exact comment ▸ .semicolon
  · by_cases closing : c = ')'
    · subst closing
      match depth with
      | 0 => exact .unbalanced
      | 1 => exact .last
      | depth + 2 => exact .closing
    · cases blank : isBlank c with
      | false => exact .part comment blank closing
      | true =>
        cases depth with
        | zero => exact .gap blank
        | succ depth => exact .blank blank

/-! ### The current term -/

theorem after_push (spot : Spot) (c : Char) (seen : List Char) :
    spot.after (c :: seen).reverse = (spot.after seen.reverse).next c := by
  rw [List.reverse_cons, Spot.after_append]
  rfl

theorem closed_push_text (closed : Closed seen.reverse) (c : Char) :
    Closed (c :: seen).reverse ↔ entered c ≠ .literal := by
  rw [List.reverse_cons, closed_append_iff closed, entered]
  by_cases quoted : c = quote
  · subst quoted
    have opened : ¬ Closed [quote] := fun h => absurd ((closed_iff .snug).1 h) (by decide)
    simp [opened]
  · simp [quoted, Closed.char quoted .nil]

theorem closed_push_literal (opened : ¬ Closed seen.reverse) (c : Char) :
    Closed (c :: seen).reverse ↔ left c ≠ .literal := by
  have inside : (Spot.text .snug).after seen.reverse = .literal :=
    Decidable.of_not_not fun h => opened ((closed_iff .snug).2 h)
  rw [closed_iff .snug, after_push, inside, left]
  by_cases quoted : c = quote
  · subst quoted
    simp
  · simp [quoted, Spot.literal_next quoted]

/-- The text seen so far is closed, or the script is in the middle of a literal. -/
def Seen (seen : List Char) (within : Within) : Prop :=
  Closed seen.reverse ↔ within ≠ .literal

namespace Seen

theorem nil (outer : within ≠ .literal) : Seen [] within :=
  iff_of_true .nil outer

theorem closed (h : Seen seen within) (outer : within ≠ .literal) : Closed seen.reverse :=
  h.2 outer

theorem part (h : Seen seen .text) (c : Char) : Seen (c :: seen) (entered c) :=
  closed_push_text (h.2 (by decide)) c

theorem char (h : Seen seen .text) (other : c ≠ quote) : Seen (c :: seen) .text := by
  have := h.part c
  rwa [entered, if_neg other] at this

theorem blank (h : Seen seen .text) (blank : isBlank c = true) : Seen (c :: seen) .text :=
  h.char (ne_of_isBlank blank isBlank_quote)

theorem literal (h : Seen seen .literal) (c : Char) : Seen (c :: seen) (left c) :=
  closed_push_literal (fun closed => h.1 closed rfl) c

end Seen

/-! ### Scripts without comments -/

theorem outsideFrom_left :
    outsideFrom true (c :: cs) = outsideFrom (left c = .literal) cs := by
  by_cases quoted : c = quote
  · simp [outsideFrom, left, quoted]
  · simp [outsideFrom, left, quoted]

/-- No comment starts in the rest of a script. -/
def Plain (within : Within) (cs : List Char) : Prop :=
  ∀ c ∈ outsideFrom (within = .literal) cs, c ≠ ';'

namespace Plain

theorem not_semicolon (plain : Plain .text (';' :: cs)) : False :=
  plain ';' (by simp [outsideFrom, quote]) rfl

theorem char (plain : Plain .text (c :: cs)) (other : c ≠ quote) : Plain .text cs := fun d hd =>
  plain d (by
    rw [decide_eq_false (by decide)] at hd ⊢
    exact outsideFrom_other other ▸ List.mem_cons_of_mem c hd)

theorem blank (plain : Plain .text (c :: cs)) (blank : isBlank c = true) : Plain .text cs :=
  plain.char (ne_of_isBlank blank isBlank_quote)

theorem part (plain : Plain .text (c :: cs)) : Plain (entered c) cs := by
  by_cases quoted : c = quote
  · subst quoted
    exact plain
  · rw [entered, if_neg quoted]
    exact plain.char quoted

theorem literal (plain : Plain .literal (c :: cs)) : Plain (left c) cs := fun d hd =>
  plain d (by
    rw [decide_eq_true (by decide), outsideFrom_left]
    exact hd)

theorem of_entered (other : c ≠ ';') (plain : Plain (entered c) cs) : Plain .text (c :: cs) := by
  intro d hd
  by_cases quoted : c = quote
  · subst quoted
    exact plain d hd
  · rw [decide_eq_false (by decide), outsideFrom_other quoted] at hd
    rw [entered, if_neg quoted] at plain
    rcases List.mem_cons.1 hd with rfl | hd
    · exact other
    · exact plain d hd

theorem of_left (plain : Plain (left c) cs) : Plain .literal (c :: cs) := fun d hd =>
  plain d (by
    rw [← outsideFrom_left]
    exact hd)

end Plain

theorem balancedFrom_part (unmarked : c ≠ marker) (closing : c ≠ ')') :
    balancedFrom depth false (c :: cs) =
      balancedFrom (deeper depth c) (entered c = .literal) cs := by
  by_cases quoted : c = quote
  · subst quoted
    rfl
  · by_cases opening : c = '('
    · subst opening
      rfl
    · simp [balancedFrom_other unmarked quoted opening closing, deeper, entered, opening, quoted]

theorem balancedFrom_left (unmarked : c ≠ marker) :
    balancedFrom depth true (c :: cs) = balancedFrom depth (left c = .literal) cs := by
  rw [balancedFrom_inside unmarked]
  by_cases quoted : c = quote
  · subst quoted
    rfl
  · simp [left, quoted, Spot.literal_next quoted, Spot.inLiteral]

theorem isOk_map {α β ε : Type} (f : α → β) (x : Except ε α) : (x.map f).isOk = x.isOk := by
  cases x <;> rfl

theorem isOk_splitInside (text : within ≠ .comment) (unmarked : marker ∉ cs)
    (plain : Plain within cs) :
    (splitInside depth seen within cs).isOk = balancedFrom depth (within = .literal) cs := by
  induction cs generalizing depth seen within with
  | nil =>
    cases within with
    | comment => exact absurd rfl text
    | literal => simp [splitInside, balancedFrom, Except.isOk, Except.toBool]
    | text => cases depth <;> simp [splitInside, balancedFrom, Except.isOk, Except.toBool]
  | cons c cs ih =>
    simp only [List.mem_cons, not_or] at unmarked
    have go {within : Within} (text : within ≠ .comment) (plain : Plain within cs) (depth : Nat)
        (seen : List Char) :
        (splitInside depth seen within cs).isOk = balancedFrom depth (within = .literal) cs :=
      ih text unmarked.2 plain
    cases within with
    | comment => exact absurd rfl text
    | literal =>
      rw [splitInside_literal, go (left_ne_comment c) plain.literal]
      exact (balancedFrom_left (Ne.symm unmarked.1)).symm
    | text =>
      cases turn depth c with
      | semicolon => exact plain.not_semicolon.elim
      | gap blank =>
        refine Eq.trans ?_ (balancedFrom_blank blank 0).symm
        by_cases empty : seen = []
        · rw [empty, splitInside_blank_none blank]
          exact go (by decide) (plain.blank blank) 0 []
        · rw [splitInside_blank_some blank empty, isOk_map]
          exact go (by decide) (plain.blank blank) 0 []
      | @blank depth _ blank =>
        rw [splitInside_blank_deep blank, go (by decide) (plain.blank blank)]
        exact (balancedFrom_blank blank (depth + 1)).symm
      | unbalanced => rfl
      | last =>
        rw [splitInside_closing_one, isOk_map]
        exact go (by decide) (plain.char (by decide)) 0 []
      | @closing depth =>
        rw [splitInside_closing_deep]
        exact go (by decide) (plain.char (by decide)) (depth + 1) _
      | part comment part closing =>
        rw [splitInside_part comment part closing, go (entered_ne_comment c) plain.part]
        exact (balancedFrom_part (Ne.symm unmarked.1) closing).symm

/-- The pieces of a text in order, with blanks between them. A piece is closed, and it ends with a
parenthesis or before a blank or the end of the text. -/
inductive Scattered : List (List Char) → List Char → Prop
  | nil {cs : List Char} : (∀ c ∈ cs, isBlank c = true) → Scattered [] cs
  | cons (gap : List Char) {piece rest : List Char} {pieces : List (List Char)} :
      (∀ c ∈ gap, isBlank c = true) → Closed piece →
      (piece.getLast? = some ')' ∨ ∀ c ∈ rest.head?, isBlank c = true) →
      Scattered pieces rest → Scattered (piece :: pieces) (gap ++ piece ++ rest)

theorem Scattered.blank (blank : isBlank c = true) (h : Scattered pieces cs) :
    Scattered pieces (c :: cs) := by
  cases h with
  | nil blanks => exact .nil (List.forall_mem_cons.2 ⟨blank, blanks⟩)
  | @cons gap piece rest pieces blanks closed ends scattered =>
    exact .cons (c :: gap) (List.forall_mem_cons.2 ⟨blank, blanks⟩) closed ends scattered

theorem isBlank_of_trim (empty : (trim cs).isEmpty = true) : ∀ c ∈ cs, isBlank c = true := by
  obtain ⟨before, after, whole, leading, trailing, -, -⟩ := exists_trim cs
  rw [List.isEmpty_iff.1 empty, List.append_nil] at whole
  intro c hc
  rw [whole, List.mem_append] at hc
  exact hc.elim (leading c) (trailing c)

/-- From wherever the rest of a script without comments is cut, the terms are pieces of what was
seen and of the rest, clipped. -/
def Scatters (cs : List Char) : Prop :=
  ∀ (depth : Nat) (seen : List Char) (within : Within), within ≠ .comment → Seen seen within →
    Plain within cs → ∀ pieces, splitInside depth seen within cs = .ok pieces →
      ∃ chunks, pieces = chunks.map clip ∧ Scattered chunks (seen.reverse ++ cs)

namespace Scatters

theorem nil : Scatters [] := by
  intro depth seen within text h plain pieces split
  cases within with
  | comment => exact absurd rfl text
  | literal => cases split
  | text =>
    rw [splitInside_nil (by decide)] at split
    split at split
    · cases split
      split
      · rename_i empty
        exact ⟨[], rfl, .nil (by simpa using isBlank_of_trim empty)⟩
      · exact ⟨[seen.reverse], rfl,
          .cons [] (by simp) (h.closed (by decide)) (.inr (by simp)) (.nil (by simp))⟩
    · cases split

theorem fresh (h : Scatters cs) (plain : Plain .text cs) :
    ∀ pieces, splitInside 0 [] .text cs = .ok pieces →
      ∃ chunks, pieces = chunks.map clip ∧ Scattered chunks cs :=
  h 0 [] .text (by decide) (.nil (by decide)) plain

theorem gap (h : Scatters cs) (plain : Plain .text cs) (blank : isBlank c = true)
    (pieces : List (List Char)) (split : splitInside 0 [] .text cs = .ok pieces) :
    ∃ chunks, pieces = chunks.map clip ∧ Scattered chunks (c :: cs) := by
  obtain ⟨chunks, same, scattered⟩ := h.fresh plain pieces split
  exact ⟨chunks, same, scattered.blank blank⟩

/-- A character that is added to the current term. -/
theorem push (h : Scatters cs) (text : within ≠ .comment) (spot : Seen (c :: seen) within)
    (plain : Plain within cs) (split : splitInside depth (c :: seen) within cs = .ok pieces) :
    ∃ chunks, pieces = chunks.map clip ∧ Scattered chunks (seen.reverse ++ c :: cs) := by
  simpa using h depth (c :: seen) within text spot plain pieces split

/-- A term that has ended comes before those of the rest. -/
theorem last {piece rest : List Char} {split : Except ScriptFault (List (List Char))}
    (closed : Closed piece) (ends : piece.getLast? = some ')' ∨ ∀ c ∈ rest.head?, isBlank c = true)
    (known : ∀ pieces, split = .ok pieces →
      ∃ chunks, pieces = chunks.map clip ∧ Scattered chunks rest)
    (h : split.map (clip piece :: ·) = .ok pieces) :
    ∃ chunks, pieces = chunks.map clip ∧ Scattered chunks (piece ++ rest) := by
  cases split with
  | error fault => cases h
  | ok others =>
    cases h
    obtain ⟨chunks, rfl, scattered⟩ := known others rfl
    exact ⟨piece :: chunks, rfl, .cons [] (by simp) closed ends scattered⟩

theorem text (h : Scatters cs) (spot : Seen seen .text) (plain : Plain .text (c :: cs))
    (split : splitInside depth seen .text (c :: cs) = .ok pieces) :
    ∃ chunks, pieces = chunks.map clip ∧ Scattered chunks (seen.reverse ++ c :: cs) := by
  cases turn depth c with
  | semicolon => exact plain.not_semicolon.elim
  | gap blank =>
    have after := h.gap (plain.blank blank) blank
    by_cases empty : seen = []
    · subst empty
      exact after pieces (splitInside_blank_none blank ▸ split)
    · rw [splitInside_blank_some blank empty] at split
      exact last (spot.closed (by decide)) (.inr (by simpa using blank)) after split
  | blank blank =>
    rw [splitInside_blank_deep blank] at split
    exact h.push (by decide) (spot.blank blank) (plain.blank blank) split
  | unbalanced => cases split
  | last =>
    rw [splitInside_closing_one] at split
    have closed := (spot.char (c := ')') (by decide)).closed (by decide)
    simpa using last closed (.inl (by simp)) (h.fresh (plain.char (by decide))) split
  | closing =>
    rw [splitInside_closing_deep] at split
    exact h.push (by decide) (spot.char (by decide)) (plain.char (by decide)) split
  | part comment part closing =>
    rw [splitInside_part comment part closing] at split
    exact h.push (entered_ne_comment c) (spot.part c) plain.part split

end Scatters

theorem scatters (cs : List Char) : Scatters cs := by
  induction cs with
  | nil => exact .nil
  | cons c cs ih =>
    intro depth seen within text spot plain pieces split
    cases within with
    | comment => exact absurd rfl text
    | literal => exact ih.push (left_ne_comment c) (spot.literal c) plain.literal split
    | text => exact ih.text spot plain split

/-! ### Whole scripts -/

variable {script : String}

/-- A script without comments and markers can be cut exactly if it is balanced. -/
theorem isOk_splitTerms (unmarked : marker ∉ script.toList) (plain : Plain .text script.toList) :
    (splitTerms script).isOk = isBalanced script.toList := by
  rw [splitTerms, isOk_map]
  exact isOk_splitInside (by decide) unmarked plain

/-- The terms of a script without comments are its pieces, clipped. -/
theorem scattered_of_splitTerms (plain : Plain .text script.toList) {pieces : List String}
    (split : splitTerms script = .ok pieces) :
    ∃ chunks, pieces = (chunks.map clip).map .ofList ∧ Scattered chunks script.toList := by
  unfold splitTerms at split
  cases cut : splitInside 0 [] .text script.toList with
  | error fault =>
    rw [cut] at split
    cases split
  | ok terms =>
    rw [cut] at split
    cases split
    obtain ⟨chunks, rfl, scattered⟩ := (scatters script.toList).fresh plain terms cut
    exact ⟨chunks, rfl, scattered⟩

theorem Scattered.single {piece : List Char} (h : Scattered [piece] cs) : clip cs = clip piece := by
  cases h with
  | cons gap leading closed _ scattered =>
    cases scattered with
    | nil trailing => exact closed.clip_surrounded leading trailing

theorem plain_of_free (free : ';' ∉ cs) : Plain .text cs := by
  intro c hc same
  subst same
  exact free (mem_of_outsideFrom hc)

/-- The one term of a script is the script, clipped. -/
theorem eq_clip_of_splitTerms (plain : Plain .text script.toList) {piece : String}
    (single : splitTerms script = .ok [piece]) : piece = .ofList (clip script.toList) := by
  obtain ⟨chunks, pieces, scattered⟩ := scattered_of_splitTerms plain single
  match chunks, pieces, scattered with
  | [chunk], pieces, scattered =>
    rw [scattered.single]
    exact List.head_eq_of_cons_eq pieces

end KinQuery.Text
