import KinQuery.Proofs.Text.Closed
import KinQuery.Term.Token

/-! Cutting a text into tokens without regard to their places.

A machine goes over the text once and keeps what was read of an atom. Two texts that it cuts
alike differ in blanks between tokens only; so the tokens of a text are those of its tidy
spelling, and where one token cannot run on into the next, the tokens of a text are those of its
two halves. -/
namespace KinQuery

open Text (Spot Edge Closed Role role quote marker isBlank isSpace tidy)

variable {cs ds seen : List Char} {c : Char}

/-- What a character is for the reader of terms, outside of literals. -/
inductive Mark : Char → Prop
  | opening : Mark '('
  | closing : Mark ')'
  | quote : Mark Text.quote
  | space {c : Char} : isSpace c = true → Mark c
  | word {c : Char} : IsWordChar c → Mark c

theorem mark (c : Char) : Mark c := by
  by_cases opening : c = '('
  · exact opening ▸ .opening
  · by_cases closing : c = ')'
    · exact closing ▸ .closing
    · by_cases quoted : c = quote
      · exact quoted ▸ .quote
      · cases space : isSpace c with
        | true => exact .space space
        | false => exact .word ⟨opening, closing, quoted, space⟩

theorem not_sign_of_isSpace (space : isSpace c = true) : c ≠ '(' ∧ c ≠ ')' ∧ c ≠ quote := by
  have blank := Text.isBlank_of_isSpace space
  exact ⟨Text.ne_of_isBlank blank rfl, Text.ne_of_isBlank blank rfl, Text.ne_of_isBlank blank rfl⟩

/-- What was read, backwards, of the atom that a text stands in the middle of: of a string
literal or of a word, of which nothing was read yet between tokens. -/
inductive Reading where
  | text (seen : List Char)
  | literal (seen : List Char)

namespace Reading

/-- The token that a word is, if anything was read of one. -/
def pending : List Char → List Token
  | [] => []
  | c :: seen => [.atom (.ofList (c :: seen).reverse)]

def next : Reading → Char → Reading
  | .literal seen, c => if c = quote then .text [] else .literal (c :: seen)
  | .text seen, c =>
    if c = quote then .literal [c]
    else if c = '(' || c = ')' || isSpace c then .text []
    else .text (c :: seen)

/-- The tokens that a character completes. -/
def emit : Reading → Char → List Token
  | .literal seen, c => if c = quote then [.atom (.ofList (c :: seen).reverse)] else []
  | .text seen, c =>
    if c = '(' then pending seen ++ [.opening]
    else if c = ')' then pending seen ++ [.closing]
    else if c = quote || isSpace c then pending seen
    else []

/-- The tokens of the rest of a text, if its literals are closed. -/
def cut : Reading → List Char → Option (List Token)
  | .literal _, [] => none
  | .text seen, [] => some (pending seen)
  | reading, c :: cs => (cut (reading.next c) cs).map (reading.emit c ++ ·)

def after (reading : Reading) (cs : List Char) : Reading :=
  cs.foldl next reading

variable {reading : Reading}

theorem after_cons : reading.after (c :: cs) = (reading.next c).after cs := rfl

theorem after_append : reading.after (cs ++ ds) = (reading.after cs).after ds :=
  List.foldl_append

theorem cut_cons : reading.cut (c :: cs) = ((reading.next c).cut cs).map (reading.emit c ++ ·) := by
  cases reading <;> rfl

@[simp] theorem cut_nil : (text seen).cut [] = some (pending seen) := rfl

theorem cut_literal_quote : (literal seen).cut (quote :: cs) =
    ((text []).cut cs).map (.atom (.ofList (quote :: seen).reverse) :: ·) := rfl

theorem cut_literal_other (other : c ≠ quote) :
    (literal seen).cut (c :: cs) = (literal (c :: seen)).cut cs := by
  simp [cut_cons, next, emit, other]

@[simp] theorem cut_opening : (text seen).cut ('(' :: cs) =
    ((text []).cut cs).map (pending seen ++ .opening :: ·) := by
  simp [cut_cons, next, emit, quote]

@[simp] theorem cut_closing : (text seen).cut (')' :: cs) =
    ((text []).cut cs).map (pending seen ++ .closing :: ·) := by
  simp [cut_cons, next, emit, quote]

@[simp] theorem cut_quote : (text seen).cut (quote :: cs) =
    ((literal [quote]).cut cs).map (pending seen ++ ·) := by
  have apart : quote ≠ '(' ∧ quote ≠ ')' := by decide
  simp [cut_cons, next, emit, apart]

theorem cut_space (space : isSpace c = true) :
    (text seen).cut (c :: cs) = ((text []).cut cs).map (pending seen ++ ·) := by
  obtain ⟨opening, closing, quoted⟩ := not_sign_of_isSpace space
  simp [cut_cons, next, emit, space, quoted, opening, closing]

theorem cut_word (word : IsWordChar c) : (text seen).cut (c :: cs) = (text (c :: seen)).cut cs := by
  obtain ⟨opening, closing, quoted, space⟩ := word
  simp [cut_cons, next, emit, opening, closing, quoted, space]

end Reading

open Reading

/-! ### Places do not matter -/

namespace Lexemes

@[simp] theorem tokens?_next (token : Token) (place : Position) (rest : Lexemes) :
    (next token place rest).tokens? = rest.tokens?.map (token :: ·) := rfl

theorem tokens?_cut (cs : List Char) :
    (∀ p, (between p cs).tokens? = (text []).cut cs) ∧
      (∀ first c seen p, (inWord first (c :: seen) p cs).tokens? = (text (c :: seen)).cut cs) ∧
      ∀ first seen p, (inLiteral first seen p cs).tokens? = (literal seen).cut cs := by
  induction cs with
  | nil => exact ⟨fun _ => rfl, fun _ _ _ _ => rfl, fun _ _ _ => rfl⟩
  | cons c cs ih =>
    obtain ⟨atBetween, atWord, atLiteral⟩ := ih
    have apart : quote ≠ '(' ∧ quote ≠ ')' := by decide
    refine ⟨fun p => ?_, fun first d seen p => ?_, fun first seen p => ?_⟩
    · cases mark c with
      | opening => simp [between, atBetween, pending]
      | closing => simp [between, atBetween, pending]
      | quote => simp [between, atLiteral, pending, apart]
      | space space =>
        obtain ⟨opening, closing, quoted⟩ := not_sign_of_isSpace space
        simp [between, atBetween, cut_space space, pending, opening, closing, quoted, space]
      | word word =>
        obtain ⟨opening, closing, quoted, space⟩ := id word
        simp [between, atWord, cut_word word, opening, closing, quoted, space]
    · cases mark c with
      | opening => simp [inWord, atBetween, pending, Function.comp_def]
      | closing => simp [inWord, atBetween, pending, Function.comp_def]
      | quote => simp [inWord, atLiteral, pending, apart]
      | space space =>
        obtain ⟨opening, closing, quoted⟩ := not_sign_of_isSpace space
        simp [inWord, atBetween, cut_space space, pending, opening, closing, quoted, space]
      | word word =>
        obtain ⟨opening, closing, quoted, space⟩ := id word
        simp [inWord, atWord, cut_word word, opening, closing, quoted, space]
    · by_cases quoted : c = quote
      · subst quoted
        simp [inLiteral, atBetween, cut_literal_quote]
      · simp [inLiteral, atLiteral, cut_literal_other quoted, quoted]

/-- The tokens of a text, by the machine. -/
theorem tokens?_ofText (cs : List Char) : (ofText cs).tokens? = (text []).cut cs :=
  (tokens?_cut cs).1 .start

end Lexemes

namespace Reading

/-! ### Two texts in a row -/

/-- Tokens and then more tokens, if both texts have any. -/
def joined (first rest : Option (List Token)) : Option (List Token) :=
  first.bind fun tokens => rest.map (tokens ++ ·)

theorem map_joined (tokens : List Token) (first rest : Option (List Token)) :
    (joined first rest).map (tokens ++ ·) = joined (first.map (tokens ++ ·)) rest := by
  cases first with
  | none => rfl
  | some first => cases rest <;> simp [joined]

theorem joined_nil (first : Option (List Token)) : joined first (some []) = first := by
  cases first <;> simp [joined]

/-- A word before the text ends with it: the text starts with no character of a word. -/
def Stops (cs : List Char) : Prop :=
  ∀ c ∈ cs.head?, ¬ IsWordChar c

theorem cut_of_stops (stops : Stops cs) (seen : List Char) :
    (text seen).cut cs = ((text []).cut cs).map (pending seen ++ ·) := by
  cases cs with
  | nil => simp [pending]
  | cons c cs =>
    cases mark c with
    | opening => simp [pending, Function.comp_def]
    | closing => simp [pending, Function.comp_def]
    | quote => simp [pending]
    | space space => simp [cut_space space, pending]
    | word word => exact absurd word (stops c rfl)

/-- The tokens of two texts in a row are those of the one and then those of the other, if the
first is closed and no word goes on from it into the second. -/
theorem cut_append {reading : Reading} (ends : reading.after cs = .text seen)
    (apart : seen = [] ∨ Stops ds) :
    reading.cut (cs ++ ds) = joined (reading.cut cs) ((text []).cut ds) := by
  induction cs generalizing reading with
  | nil =>
    obtain rfl : reading = .text seen := ends
    rw [cut_nil, joined, Option.bind_some, List.nil_append]
    rcases apart with rfl | stops
    · simp [pending]
    · exact cut_of_stops stops seen
  | cons c cs ih => rw [List.cons_append, cut_cons, cut_cons, ih ends, map_joined]

/-- A text that ends inside of a literal has no tokens. -/
theorem cut_open {reading : Reading} (opened : reading.after cs = .literal seen) :
    reading.cut cs = none := by
  induction cs generalizing reading with
  | nil =>
    obtain rfl : reading = .literal seen := opened
    rfl
  | cons c cs ih => rw [cut_cons, ih opened, Option.map_none]

theorem after_of_cut {reading : Reading} {tokens : List Token} (h : reading.cut cs = some tokens) :
    ∃ seen, reading.after cs = .text seen := by
  cases ends : reading.after cs with
  | text seen => exact ⟨seen, rfl⟩
  | literal seen =>
    rw [cut_open ends] at h
    cases h

theorem exists_cut {reading : Reading} (ends : reading.after cs = .text seen) :
    ∃ tokens, reading.cut cs = some tokens := by
  induction cs generalizing reading with
  | nil =>
    obtain rfl : reading = .text seen := ends
    exact ⟨_, rfl⟩
  | cons c cs ih =>
    obtain ⟨tokens, rest⟩ := ih ends
    exact ⟨_, by rw [cut_cons, rest, Option.map_some]⟩

/-- The tokens of a text between parentheses. -/
theorem cut_enclosed (cs : List Char) :
    (text []).cut ('(' :: (cs ++ [')'])) =
      ((text []).cut cs).map fun tokens => .opening :: (tokens ++ [.closing]) := by
  have stops : Stops [')'] := fun c hc word => word.2.1 (Option.some.inj hc).symm
  rw [cut_opening]
  cases ends : (text []).after cs with
  | text seen =>
    rw [cut_append ends (.inr stops)]
    cases (text []).cut cs <;> simp [joined, pending]
  | literal seen =>
    have opened : (text []).after (cs ++ [')']) = .literal (')' :: seen) := by
      rw [after_append, ends]
      rfl
    rw [cut_open opened, cut_open ends]
    rfl

/-! ### Blanks do not matter -/

/-- The space that is still to be written at an edge. -/
def due : Edge → List Char
  | .gap => [' ']
  | _ => []

@[simp] theorem due_snug : due .snug = [] := rfl
@[simp] theorem due_part : due .part = [] := rfl

theorem lead_eq_due (other : c ≠ ')') (edge : Edge) : edge.lead c = due edge := by
  cases edge with
  | snug => rfl
  | part => rfl
  | gap => exact Edge.lead_gap other

theorem cut_due (seen : List Char) :
    (text seen).cut (due .gap ++ cs) = ((text []).cut cs).map (pending seen ++ ·) :=
  cut_space rfl

theorem cut_due_congr (same : ∀ seen, (text seen).cut cs = (text seen).cut ds) (edge : Edge)
    (seen : List Char) : (text seen).cut (due edge ++ cs) = (text seen).cut (due edge ++ ds) := by
  cases edge with
  | snug => exact same seen
  | part => exact same seen
  | gap => rw [cut_due, cut_due, same]

/-- The tidy spelling of a text has the tokens of the text, if its blanks separate terms. At an
edge where no space may follow, nothing may have been read of a word. -/
structure Kept (cs : List Char) : Prop where
  inside (seen : List Char) :
    (∀ c ∈ Text.outsideFrom true cs, isBlank c = true → isSpace c = true) →
      (literal seen).cut (tidy .literal cs) = (literal seen).cut cs
  outside (edge : Edge) (seen : List Char) :
    (∀ c ∈ Text.outsideFrom false cs, isBlank c = true → isSpace c = true) →
      (edge = .snug → seen = []) →
      (text seen).cut (tidy (.text edge) cs) = (text seen).cut (due edge ++ cs)

namespace Kept

theorem nil : Kept [] := by
  refine ⟨fun _ _ => rfl, fun edge seen _ _ => ?_⟩
  cases edge with
  | snug => rfl
  | part => rfl
  | gap => rw [cut_due, cut_nil, Option.map_some, pending, List.append_nil, Text.tidy_nil, cut_nil]

theorem literal (h : Kept cs) (c : Char) (seen : List Char)
    (spaced : ∀ d ∈ Text.outsideFrom true (c :: cs), isBlank d = true → isSpace d = true) :
    (Reading.literal seen).cut (tidy .literal (c :: cs)) =
      (Reading.literal seen).cut (c :: cs) := by
  by_cases quoted : c = quote
  · subst quoted
    rw [Text.tidy_literal, cut_literal_quote, cut_literal_quote]
    exact congrArg _ (h.outside .part [] spaced (by simp))
  · rw [Text.outsideFrom, decide_eq_true quoted] at spaced
    rw [Text.tidy_literal, Spot.literal_next quoted, cut_literal_other quoted,
      cut_literal_other quoted, h.inside _ spaced]

theorem blank (h : Kept cs) (blank : isBlank c = true) (space : isSpace c = true) (edge : Edge)
    (seen : List Char)
    (spaced : ∀ d ∈ Text.outsideFrom false cs, isBlank d = true → isSpace d = true)
    (settled : edge = .snug → seen = []) :
    (text seen).cut (tidy (.text edge) (c :: cs)) = (text seen).cut (due edge ++ c :: cs) := by
  rw [Text.tidy_blank blank, h.outside edge.blanked seen spaced (by cases edge <;> simp_all)]
  cases edge with
  | snug =>
    obtain rfl := settled rfl
    simp [cut_space space, pending]
  | part => exact (cut_due seen).trans (cut_space space).symm
  | gap =>
    refine (cut_due seen).trans ((cut_due seen).trans ?_).symm
    simp [cut_space space, pending]

theorem text (h : Kept cs) (c : Char) (edge : Edge) (seen : List Char)
    (spaced : ∀ d ∈ Text.outsideFrom false (c :: cs), isBlank d = true → isSpace d = true)
    (settled : edge = .snug → seen = []) :
    (Reading.text seen).cut (tidy (.text edge) (c :: cs)) =
      (Reading.text seen).cut (due edge ++ c :: cs) := by
  cases role c with
  | quote =>
    rw [Text.tidy_quote, lead_eq_due (by decide)]
    refine cut_due_congr (fun seen => ?_) edge seen
    rw [cut_quote, cut_quote, h.inside _ spaced]
  | blank blank =>
    rw [Text.outsideFrom_other (Text.ne_of_isBlank blank Text.isBlank_quote)] at spaced
    obtain ⟨here, rest⟩ := List.forall_mem_cons.1 spaced
    exact h.blank blank (here blank) edge seen rest settled
  | opening =>
    rw [Text.outsideFrom_other (by decide)] at spaced
    have rest := h.outside .snug [] (List.forall_mem_cons.1 spaced).2 (fun _ => rfl)
    rw [Text.tidy_opening, lead_eq_due (by decide)]
    refine cut_due_congr (fun seen => ?_) edge seen
    rw [cut_opening, cut_opening, rest, due_snug, List.nil_append]
  | closing =>
    rw [Text.outsideFrom_other (by decide)] at spaced
    have rest := h.outside .part [] (List.forall_mem_cons.1 spaced).2 (by simp)
    rw [Text.tidy_closing, cut_closing, rest, due_part, List.nil_append]
    cases edge with
    | snug => simp
    | part => simp
    | gap => simp [cut_due, pending, Function.comp_def]
  | plain quoted part opening closing =>
    rw [Text.outsideFrom_other quoted] at spaced
    have space : isSpace c = false := Bool.eq_false_iff.2 fun space => by
      rw [Text.isBlank_of_isSpace space] at part
      cases part
    have word : IsWordChar c := ⟨opening, closing, quoted, space⟩
    rw [Text.tidy_plain quoted part opening, lead_eq_due closing]
    refine cut_due_congr (fun seen => ?_) edge seen
    rw [cut_word word, cut_word word,
      h.outside .part _ (List.forall_mem_cons.1 spaced).2 (by simp), due_part, List.nil_append]

end Kept

theorem kept (cs : List Char) : Kept cs := by
  induction cs with
  | nil => exact .nil
  | cons c cs ih => exact ⟨ih.literal c, ih.text c⟩

/-- Clipping keeps the tokens of a closed text. -/
theorem cut_clip (closed : Closed cs) (unmarked : marker ∉ cs)
    (spaced : ∀ c ∈ Text.outside cs, isBlank c = true → isSpace c = true) :
    (text []).cut (Text.clip cs) = (text []).cut cs := by
  rw [Text.clip_eq_tidy closed unmarked]
  exact (kept cs).outside .snug [] spaced fun _ => rfl

/-- Outside of literals a closed text leaves at most a word unfinished. -/
theorem after_of_closed (closed : Closed cs) (seen : List Char) :
    ∃ seen', (text seen).after cs = .text seen' := by
  induction closed generalizing seen with
  | nil => exact ⟨seen, rfl⟩
  | @char c cs other _ ih =>
    have next : ∃ seen', (text seen).next c = .text seen' := by
      rw [Reading.next, if_neg other]
      split <;> exact ⟨_, rfl⟩
    obtain ⟨seen', next⟩ := next
    rw [after_cons, next]
    exact ih seen'
  | @literal body cs free _ ih =>
    have inside (body : List Char) (free : quote ∉ body) (seen : List Char) :
        ∃ seen', (literal seen).after body = .literal seen' := by
      induction body generalizing seen with
      | nil => exact ⟨seen, rfl⟩
      | cons c body ih =>
        simp only [List.mem_cons, not_or] at free
        rw [after_cons, Reading.next, if_neg (Ne.symm free.1)]
        exact ih free.2 _
    obtain ⟨seen', stays⟩ := inside body free [quote]
    rw [after_cons, show (text seen).next quote = .literal [quote] from rfl, after_append, stays,
      after_cons]
    exact ih []

/-- A closed text that ends with a parenthesis leaves no word unfinished. -/
theorem after_of_closing (closed : Closed cs) (ends : cs.getLast? = some ')') :
    (text []).after cs = .text [] := by
  obtain ⟨front, rfl⟩ := List.getLast?_eq_some_iff.1 ends
  obtain ⟨seen, outer⟩ := after_of_closed closed []
  rw [after_append] at outer ⊢
  cases before : (text []).after front with
  | text seen => rfl
  | literal seen =>
    rw [before] at outer
    cases outer

end Reading
end KinQuery
