import KinQuery.Proofs.Text.Clip
import Mathlib.Data.List.DropRight
import Mathlib.Data.List.TakeWhile

/-! Clipping as one pass over a text.

Squeezing goes over a text four times. A machine does the same from left to right: it drops
blanks, and before the next part it sets one space where blanks stood between two parts. On a
text whose literals are closed the machine does what clipping does, literals included. -/
namespace KinQuery.Text

variable {cs ds : List Char} {c : Char}

/-- What a character is outside of literals. -/
inductive Role : Char → Prop
  | quote : Role quote
  | blank {c : Char} : isBlank c = true → Role c
  | opening : Role '('
  | closing : Role ')'
  | plain {c : Char} : c ≠ Text.quote → isBlank c = false → c ≠ '(' → c ≠ ')' → Role c

theorem role (c : Char) : Role c := by
  by_cases quote : c = Text.quote
  · exact quote ▸ .quote
  · by_cases opening : c = '('
    · exact opening ▸ .opening
    · by_cases closing : c = ')'
      · exact closing ▸ .closing
      · cases blank : isBlank c with
        | true => exact .blank blank
        | false => exact .plain quote blank opening closing

@[simp] theorem isBlank_space : isBlank ' ' = true := rfl
@[simp] theorem isBlank_newline : isBlank '\n' = true := rfl
@[simp] theorem isBlank_opening : isBlank '(' = false := rfl
@[simp] theorem isBlank_closing : isBlank ')' = false := rfl
@[simp] theorem isBlank_quote : isBlank quote = false := rfl
@[simp] theorem isBlank_marker : isBlank marker = false := rfl

theorem ne_of_isBlank {d : Char} (blank : isBlank c = true) (part : isBlank d = false) : c ≠ d := by
  rintro rfl
  rw [part] at blank
  cases blank

/-! ### The machine -/

/-- What a text outside of literals ends in: nothing that a space may follow (its start or an
opening parenthesis), a part, or a part and blanks. -/
inductive Edge where
  | snug
  | part
  | gap
  deriving DecidableEq

namespace Edge

def blanked : Edge → Edge
  | .snug => .snug
  | .part => .gap
  | .gap => .gap

/-- The space due before a character that is no blank. -/
def lead (edge : Edge) (c : Char) : List Char :=
  if edge = .gap ∧ c ≠ ')' then [' '] else []

@[simp] theorem blanked_snug : blanked .snug = .snug := by simp [blanked]
@[simp] theorem blanked_part : blanked .part = .gap := by simp [blanked]
@[simp] theorem blanked_gap : blanked .gap = .gap := by simp [blanked]

@[simp] theorem lead_snug (c : Char) : lead .snug c = [] := by simp [lead]
@[simp] theorem lead_part (c : Char) : lead .part c = [] := by simp [lead]
@[simp] theorem lead_closing (edge : Edge) : edge.lead ')' = [] := by simp [lead]

theorem lead_gap (other : c ≠ ')') : lead .gap c = [' '] := by simp [lead, other]

@[simp] theorem lead_gap_quote : lead .gap quote = [' '] := by
  simp [lead, quote]
@[simp] theorem lead_gap_opening : lead .gap '(' = [' '] := by simp [lead]

end Edge

/-- Where a text ends: inside a literal, or at an edge outside of literals. -/
inductive Spot where
  | literal
  | text (edge : Edge)
  deriving DecidableEq

namespace Spot

def next : Spot → Char → Spot
  | .literal, c => if c = quote then .text .part else .literal
  | .text edge, c =>
    if c = quote then .literal
    else if isBlank c then .text edge.blanked
    else if c = '(' then .text .snug
    else .text .part

/-- What is written for a character. -/
def emit : Spot → Char → List Char
  | .literal, c => [c]
  | .text edge, c => if isBlank c then [] else edge.lead c ++ [c]

def after (spot : Spot) (cs : List Char) : Spot :=
  cs.foldl next spot

variable {spot : Spot} {edge : Edge}

@[simp] theorem next_quote : (text edge).next quote = .literal := by simp [next]
@[simp] theorem next_opening : (text edge).next '(' = .text .snug := by
  simp [next, quote, isBlank_opening]
@[simp] theorem next_closing : (text edge).next ')' = .text .part := by
  simp [next, quote, isBlank_closing]
@[simp] theorem next_marker : (text edge).next marker = .text .part := rfl
@[simp] theorem literal_next_quote : literal.next quote = .text .part := by simp [next]

theorem next_blank (blank : isBlank c = true) : (text edge).next c = .text edge.blanked := by
  simp [next, blank, ne_of_isBlank blank isBlank_quote]

theorem next_plain (quote : c ≠ quote) (part : isBlank c = false) (opening : c ≠ '(') :
    (text edge).next c = .text .part := by
  simp [next, quote, part, opening]

theorem literal_next (inside : c ≠ quote) : literal.next c = .literal := if_neg inside

theorem emit_blank (blank : isBlank c = true) : (text edge).emit c = [] := if_pos blank

theorem emit_part (part : isBlank c = false) : (text edge).emit c = edge.lead c ++ [c] :=
  if_neg (by simp [part])

@[simp] theorem after_nil : spot.after [] = spot := by simp [after]
@[simp] theorem after_cons : spot.after (c :: cs) = (spot.next c).after cs := rfl

@[simp] theorem after_append : spot.after (cs ++ ds) = (spot.after cs).after ds :=
  List.foldl_append

end Spot

/-- Drops blanks, and sets a space before a part where blanks stood after a part. -/
def tidy (spot : Spot) : List Char → List Char
  | [] => []
  | c :: cs => spot.emit c ++ tidy (spot.next c) cs

variable {spot : Spot} {edge : Edge}

@[simp] theorem tidy_nil : tidy spot [] = [] := rfl
theorem tidy_cons : tidy spot (c :: cs) = spot.emit c ++ tidy (spot.next c) cs := rfl

theorem tidy_append : tidy spot (cs ++ ds) = tidy spot cs ++ tidy (spot.after cs) ds := by
  induction cs generalizing spot with
  | nil => rfl
  | cons c cs ih => simp [tidy_cons, ih]

@[simp] theorem tidy_quote :
    tidy (.text edge) (quote :: cs) = edge.lead quote ++ quote :: tidy .literal cs := by
  simp [tidy_cons, Spot.emit_part isBlank_quote]

@[simp] theorem tidy_opening :
    tidy (.text edge) ('(' :: cs) = edge.lead '(' ++ '(' :: tidy (.text .snug) cs := by
  simp [tidy_cons, Spot.emit_part isBlank_opening]

@[simp] theorem tidy_closing :
    tidy (.text edge) (')' :: cs) = ')' :: tidy (.text .part) cs := by
  simp [tidy_cons, Spot.emit_part isBlank_closing]

theorem tidy_blank (blank : isBlank c = true) :
    tidy (.text edge) (c :: cs) = tidy (.text edge.blanked) cs := by
  simp [tidy_cons, Spot.emit_blank blank, Spot.next_blank blank]

theorem tidy_plain (quote : c ≠ quote) (part : isBlank c = false) (opening : c ≠ '(') :
    tidy (.text edge) (c :: cs) = edge.lead c ++ c :: tidy (.text .part) cs := by
  simp [tidy_cons, Spot.emit_part part, Spot.next_plain quote part opening]

theorem tidy_literal : tidy .literal (c :: cs) = c :: tidy (Spot.literal.next c) cs := rfl

/-- Blanks that end a text leave nothing behind. -/
theorem tidy_blanks (blank : ∀ c ∈ cs, isBlank c = true) : tidy (.text edge) cs = [] := by
  induction cs generalizing edge with
  | nil => rfl
  | cons c cs ih =>
    obtain ⟨first, rest⟩ := List.forall_mem_cons.1 blank
    rw [tidy_blank first, ih rest]

theorem tidy_blanks_append (blank : ∀ c ∈ cs, isBlank c = true) :
    tidy (.text .snug) (cs ++ ds) = tidy (.text .snug) ds := by
  induction cs with
  | nil => rfl
  | cons c cs ih =>
    obtain ⟨first, rest⟩ := List.forall_mem_cons.1 blank
    rw [List.cons_append, tidy_blank first, Edge.blanked, ih rest]

/-- Whether a text starts with something that a space may stand before. -/
def beginsPart : List Char → Bool
  | [] => false
  | c :: _ => !isBlank c && c ≠ ')'

/-- A gap before a text is a space if a part follows at once. -/
theorem tidy_gap (cs : List Char) :
    tidy (.text .gap) cs = (if beginsPart cs then [' '] else []) ++ tidy (.text .part) cs := by
  cases cs with
  | nil => rfl
  | cons c cs =>
    cases role c with
    | quote => simp [beginsPart, show quote ≠ ')' by decide]
    | blank blank => simp [beginsPart, blank, tidy_blank blank, Edge.blanked]
    | opening => simp [beginsPart]
    | closing => simp [beginsPart]
    | plain quote part opening closing =>
      simp [beginsPart, part, closing, tidy_plain quote part opening, Edge.lead_gap closing]

theorem Spot.mem_emit {d : Char} (h : c ∈ spot.emit d) : c = d ∨ c = ' ' := by
  cases spot with
  | literal => exact .inl (List.mem_singleton.1 h)
  | text edge =>
    cases blank : isBlank d with
    | true =>
      rw [emit_blank blank] at h
      cases h
    | false =>
      rw [emit_part blank] at h
      rcases List.mem_append.1 h with h | h
      · unfold Edge.lead at h
        split at h
        · exact .inr (List.mem_singleton.1 h)
        · cases h
      · exact .inl (List.mem_singleton.1 h)

/-- A tidied text is made of the characters of the text and of spaces. -/
theorem mem_of_mem_tidy (h : c ∈ tidy spot cs) : c ∈ cs ∨ c = ' ' := by
  induction cs generalizing spot with
  | nil => cases h
  | cons d cs ih =>
    rw [tidy_cons] at h
    rcases List.mem_append.1 h with h | h
    · exact (Spot.mem_emit h).imp_left (List.mem_cons.2 <| .inl ·)
    · exact (ih h).imp_left (List.mem_cons_of_mem d)

theorem count_marker_tidy : (tidy spot cs).count marker = cs.count marker := by
  induction cs generalizing spot with
  | nil => rfl
  | cons c cs ih =>
    rw [tidy_cons, List.count_append, ih, List.count_cons, Nat.add_comm]
    congr 1
    cases spot with
    | literal => exact List.count_singleton
    | text edge =>
      cases blank : isBlank c with
      | true => simp [Spot.emit_blank blank, ne_of_isBlank blank isBlank_marker]
      | false =>
        have space : (' ' == marker) = false := rfl
        rw [Spot.emit_part blank, List.count_append, Edge.lead]
        split <;> simp [List.count_cons, space]

/-! ### Squeezing -/

theorem dropWhile_collapse (cs : List Char) :
    (collapse cs).dropWhile (· = ' ') = collapse (cs.dropWhile isBlank) := by
  induction cs with
  | nil => rfl
  | cons c cs ih =>
    cases blank : isBlank c with
    | true =>
      rw [collapse, if_pos blank, List.dropWhile_cons_of_pos (by simp), ih,
        List.dropWhile_cons_of_pos blank, ← ih, List.dropWhile_idempotent]
    | false =>
      have space : c ≠ ' ' := (ne_of_isBlank isBlank_space blank).symm
      simp [collapse, blank, space]

theorem collapse_blank (blank : isBlank c = true) :
    collapse (c :: cs) = ' ' :: collapse (cs.dropWhile isBlank) := by
  rw [collapse, if_pos blank, dropWhile_collapse]

theorem collapse_part (part : isBlank c = false) : collapse (c :: cs) = c :: collapse cs := by
  rw [collapse, if_neg (by simp [part])]

/-- All that squeezing does after trimming. -/
def closeUp (cs : List Char) : List Char :=
  closeUpClosings (closeUpOpenings (collapse cs))

theorem closeUpClosings_part (part : isBlank c = false) :
    closeUpClosings (c :: cs) = c :: closeUpClosings cs := by
  cases cs with
  | nil => rfl
  | cons d cs => simp [closeUpClosings, part]

theorem closeUpOpenings_other (other : c ≠ '(') :
    closeUpOpenings (c :: cs) = c :: closeUpOpenings cs := by
  cases cs with
  | nil => rfl
  | cons d cs => simp [closeUpOpenings, other]

theorem closeUp_part (part : isBlank c = false) (opening : c ≠ '(') :
    closeUp (c :: cs) = c :: closeUp cs := by
  rw [closeUp, collapse_part part, closeUpOpenings_other opening, closeUpClosings_part part,
    closeUp]

theorem closeUp_opening : closeUp ('(' :: cs) = '(' :: closeUp (cs.dropWhile isBlank) := by
  have opened : closeUpOpenings ('(' :: collapse cs) =
      '(' :: closeUpOpenings (collapse (cs.dropWhile isBlank)) := by
    cases cs with
    | nil => rfl
    | cons c cs =>
      cases blank : isBlank c with
      | true => simp [collapse_blank blank, closeUpOpenings, blank]
      | false => simp [collapse_part blank, closeUpOpenings, blank]
  rw [closeUp, collapse_part isBlank_opening, opened, closeUpClosings_part isBlank_opening, closeUp]

theorem closeUp_blank (blank : isBlank c = true) : closeUp (c :: cs) = closeUp (' ' :: cs) := by
  rw [closeUp, collapse_blank blank, closeUp, collapse_blank isBlank_space]

theorem closeUp_space_blank (blank : isBlank c = true) :
    closeUp (' ' :: c :: cs) = closeUp (' ' :: cs) := by
  rw [closeUp, collapse_blank isBlank_space, closeUp, collapse_blank isBlank_space,
    List.dropWhile_cons_of_pos blank]

theorem closeUp_space_part (part : isBlank c = false) :
    closeUp (' ' :: c :: cs) = Edge.lead .gap c ++ closeUp (c :: cs) := by
  have spaced : closeUp (' ' :: c :: cs) =
      closeUpClosings (' ' :: closeUpOpenings (collapse (c :: cs))) := by
    rw [closeUp, collapse_blank isBlank_space, List.dropWhile_cons_of_neg (by simp [part]),
      closeUpOpenings_other (by decide)]
  obtain ⟨rest, begun⟩ : ∃ rest, closeUpOpenings (collapse (c :: cs)) = c :: rest := by
    rw [collapse_part part]
    cases collapse cs with
    | nil => exact ⟨_, rfl⟩
    | cons d ds =>
      rw [closeUpOpenings]
      split <;> exact ⟨_, rfl⟩
  rw [spaced, closeUp, begun]
  by_cases closing : c = ')'
  · subst closing
    simp [closeUpClosings, closeUpClosings_part isBlank_closing]
  · simp [closeUpClosings, closing, Edge.lead_gap closing]

/-- Without quotes and without blanks at the end, the machine closes up a text; at each edge it
stands for what the text before it has left to be done. -/
theorem tidy_eq_closeUp (free : quote ∉ cs) (last : ∀ c ∈ cs.getLast?, isBlank c = false) :
    tidy (.text .snug) cs = closeUp (cs.dropWhile isBlank) ∧
      tidy (.text .part) cs = closeUp cs ∧
      (cs ≠ [] → tidy (.text .gap) cs = closeUp (' ' :: cs)) := by
  induction cs with
  | nil => exact ⟨rfl, rfl, fun h => absurd rfl h⟩
  | cons c cs ih =>
    simp only [List.mem_cons, not_or] at free
    have ends : ∀ c ∈ cs.getLast?, isBlank c = false := fun d hd => last d (by
      rw [List.getLast?_cons, Option.mem_def.1 hd]
      rfl)
    obtain ⟨snug, part, gap⟩ := ih free.2 ends
    cases role c with
    | quote => exact absurd rfl free.1
    | blank blank =>
      have nonempty : cs ≠ [] := by
        rintro rfl
        have := last c rfl
        simp [blank] at this
      refine ⟨?_, ?_, fun _ => ?_⟩
      · rw [tidy_blank blank, List.dropWhile_cons_of_pos blank]
        exact snug
      · rw [tidy_blank blank, closeUp_blank blank]
        exact gap nonempty
      · rw [tidy_blank blank, closeUp_space_blank blank]
        exact gap nonempty
    | opening =>
      have here : closeUp ('(' :: cs) = '(' :: tidy (.text .snug) cs := by
        rw [closeUp_opening, snug]
      refine ⟨?_, ?_, fun _ => ?_⟩
      · simp [here]
      · simp [here]
      · simp [closeUp_space_part isBlank_opening, here]
    | closing =>
      have here : closeUp (')' :: cs) = ')' :: tidy (.text .part) cs := by
        rw [closeUp_part isBlank_closing (by decide), part]
      refine ⟨?_, ?_, fun _ => ?_⟩
      · simp [here]
      · simp [here]
      · simp [closeUp_space_part isBlank_closing, here]
    | plain quote blank opening closing =>
      have here : closeUp (c :: cs) = c :: tidy (.text .part) cs := by
        rw [closeUp_part blank opening, part]
      refine ⟨?_, ?_, fun _ => ?_⟩
      · simp [tidy_plain quote blank opening, blank, here]
      · simp [tidy_plain quote blank opening, here]
      · simp [tidy_plain quote blank opening, closeUp_space_part blank, here]

/-- A text is blanks, then what trimming leaves of it, then blanks. -/
theorem exists_trim (cs : List Char) : ∃ before after, cs = before ++ trim cs ++ after ∧
    (∀ c ∈ before, isBlank c = true) ∧ (∀ c ∈ after, isBlank c = true) ∧
    (∀ c ∈ (trim cs).head?, isBlank c = false) ∧ ∀ c ∈ (trim cs).getLast?, isBlank c = false := by
  have split : trimStart cs = trim cs ++ ((trimStart cs).reverse.takeWhile isBlank).reverse := by
    rw [trim, trimEnd, ← List.reverse_append, List.takeWhile_append_dropWhile, List.reverse_reverse]
  refine ⟨cs.takeWhile isBlank, ((trimStart cs).reverse.takeWhile isBlank).reverse,
    ?_, ?_, ?_, ?_, ?_⟩
  · rw [List.append_assoc, ← split]
    exact (List.takeWhile_append_dropWhile).symm
  · exact fun c hc => List.mem_takeWhile_imp hc
  · exact fun c hc => List.mem_takeWhile_imp (List.mem_reverse.1 hc)
  · intro c hc
    have first : (trimStart cs).head? = some c := by
      rw [split, List.head?_append, Option.mem_def.1 hc]
      rfl
    have := List.head?_dropWhile_not isBlank cs
    rw [show cs.dropWhile isBlank = trimStart cs from rfl, first] at this
    exact this
  · intro c hc
    rw [trim, trimEnd, List.getLast?_reverse] at hc
    have := List.head?_dropWhile_not isBlank (trimStart cs).reverse
    rw [Option.mem_def.1 hc] at this
    exact this

theorem after_of_free (free : quote ∉ cs) (edge : Edge) :
    ∃ edge', (Spot.text edge).after cs = .text edge' := by
  induction cs generalizing edge with
  | nil => exact ⟨edge, rfl⟩
  | cons c cs ih =>
    simp only [List.mem_cons, not_or] at free
    cases role c with
    | quote => exact absurd rfl free.1
    | blank blank => simpa [Spot.next_blank blank] using ih free.2 _
    | opening => simpa using ih free.2 _
    | closing => simpa using ih free.2 _
    | plain quote blank opening closing =>
      simpa [Spot.next_plain quote blank opening] using ih free.2 _

/-- The machine squeezes a text without quotes. -/
theorem squeeze_eq_tidy (free : quote ∉ cs) : squeeze cs = tidy (.text .snug) cs := by
  obtain ⟨before, after, whole, leading, trailing, first, last⟩ := exists_trim cs
  have inner : quote ∉ trim cs := fun h => free (by
    rw [whole]
    simp [h])
  obtain ⟨edge, ends⟩ := after_of_free inner .snug
  have trimmed : (trim cs).dropWhile isBlank = trim cs := dropWhile_isBlank first
  calc squeeze cs = closeUp ((trim cs).dropWhile isBlank) := by rw [trimmed]; rfl
    _ = tidy (.text .snug) (trim cs) := (tidy_eq_closeUp inner last).1.symm
    _ = tidy (.text .snug) (trim cs ++ after) := by
      rw [tidy_append, ends, tidy_blanks trailing, List.append_nil]
    _ = tidy (.text .snug) cs := by
      conv_rhs => rw [whole, List.append_assoc, tidy_blanks_append leading]

end KinQuery.Text
