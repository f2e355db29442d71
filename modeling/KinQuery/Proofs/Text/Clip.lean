import KinQuery.Proofs.Term.Reading
import KinQuery.Text.Clip
import Mathlib.Data.List.Chain

/-! Texts that are spelled canonically already: clipping leaves them as they are.

Such a text is made of words, string literals, and parentheses with single spaces between parts.
What each pass does to a piece depends on the piece alone, whatever follows it, so that pieces
can be put together. -/
namespace KinQuery.Text

variable {cs ds skeleton skeleton' : List Char} {literals literals' : List (List Char)} {c d : Char}

/-! ### Skeletons that are tight -/

/-- Two characters that may stand side by side: a blank is a single space between two parts. -/
def Fits (c d : Char) : Prop :=
  (isBlank c = true → c = ' ' ∧ isBlank d = false ∧ d ≠ ')') ∧ (c = '(' → isBlank d = false)

/-- A text with parts at both ends in which no space is missing or too many. -/
structure IsTight (cs : List Char) : Prop where
  nonempty : cs ≠ []
  chain : cs.IsChain Fits
  first : ∀ c ∈ cs.head?, isBlank c = false ∧ c ≠ ')'
  last : ∀ c ∈ cs.getLast?, isBlank c = false ∧ c ≠ '('

theorem fits_of_not {c : Char} (last : isBlank c = false ∧ c ≠ '(') (d : Char) : Fits c d :=
  ⟨fun blank => absurd blank (by simp [last.1]), fun opening => absurd opening last.2⟩

namespace IsTight

theorem of_word (nonempty : cs ≠ [])
    (word : ∀ c ∈ cs, isBlank c = false ∧ c ≠ '(' ∧ c ≠ ')') : IsTight cs where
  nonempty := nonempty
  chain := by
    induction cs with
    | nil => exact .nil
    | cons c cs ih =>
      obtain ⟨⟨blank, opening, -⟩, rest⟩ := List.forall_mem_cons.1 word
      refine List.isChain_cons.2 ⟨fun d _ => fits_of_not ⟨blank, opening⟩ d, ?_⟩
      cases cs with
      | nil => exact .nil
      | cons d cs => exact ih (by simp) rest
  first c hc := ⟨(word c (List.mem_of_mem_head? hc)).1, (word c (List.mem_of_mem_head? hc)).2.2⟩
  last c hc := ⟨(word c (List.mem_of_mem_getLast? hc)).1, (word c (List.mem_of_mem_getLast? hc)).2.1⟩

theorem space (tight : IsTight cs) (tight' : IsTight ds) : IsTight (cs ++ ' ' :: ds) where
  nonempty := by simp
  chain := by
    have opened : (' ' :: ds).IsChain Fits := by
      refine List.isChain_cons.2 ⟨fun d hd => ⟨fun _ => ?_, fun same => by cases same⟩, tight'.chain⟩
      exact ⟨rfl, tight'.first d hd⟩
    exact List.isChain_append.2 ⟨tight.chain, opened, fun c hc d _ => fits_of_not (tight.last c hc) d⟩
  first c hc := by
    rw [List.head?_append_of_ne_nil _ tight.nonempty] at hc
    exact tight.first c hc
  last c hc := by
    rw [List.getLast?_append_of_ne_nil _ (by simp),
      List.getLast?_cons_of_ne_nil tight'.nonempty] at hc
    exact tight'.last c hc

theorem enclosed (tight : IsTight cs) : IsTight ('(' :: (cs ++ [')'])) where
  nonempty := by simp
  chain := by
    have closed : (cs ++ [')']).IsChain Fits :=
      List.isChain_append.2
        ⟨tight.chain, .singleton _, fun c hc d _ => fits_of_not (tight.last c hc) d⟩
    refine List.isChain_cons.2 ⟨fun d hd => ⟨fun blank => ?_, fun _ => ?_⟩, closed⟩
    · cases blank
    · rw [List.head?_append_of_ne_nil _ tight.nonempty] at hd
      exact (tight.first d hd).1
  first c hc := by
    obtain rfl := Option.some.inj hc
    exact ⟨by decide, by decide⟩
  last c hc := by
    rw [← List.cons_append, List.getLast?_append_of_ne_nil _ (by simp)] at hc
    obtain rfl := Option.some.inj hc
    exact ⟨by decide, by decide⟩

end IsTight

/-! ### Squeezing -/

theorem collapse_eq_self (chain : cs.IsChain Fits) (last : ∀ c ∈ cs.getLast?, isBlank c = false) :
    collapse cs = cs := by
  induction cs with
  | nil => rfl
  | cons c cs ih =>
    obtain ⟨fits, rest⟩ := List.isChain_cons.1 chain
    cases cs with
    | nil =>
      have part : isBlank c = false := last c (by simp)
      simp [collapse, part]
    | cons d cs =>
      have inner : collapse (d :: cs) = d :: cs := ih rest (by simpa using last)
      rw [collapse, inner]
      split
      · rename_i blank
        obtain ⟨rfl, part, -⟩ := (fits d (by simp)).1 blank
        have other : d ≠ ' ' := by
          rintro rfl
          cases part
        simp [other]
      · rfl

theorem closeUpOpenings_eq_self (chain : cs.IsChain Fits) : closeUpOpenings cs = cs := by
  induction cs with
  | nil => rfl
  | cons c cs ih =>
    cases cs with
    | nil => rfl
    | cons d cs =>
      obtain ⟨fits, rest⟩ := List.isChain_cons_cons.1 chain
      have apart : (c = '(' && isBlank d) = false := by
        by_cases opening : c = '('
        · simp [fits.2 opening]
        · simp [opening]
      rw [closeUpOpenings, apart, ih rest]
      rfl

theorem closeUpClosings_eq_self (chain : cs.IsChain Fits) : closeUpClosings cs = cs := by
  induction cs with
  | nil => rfl
  | cons c cs ih =>
    cases cs with
    | nil => rfl
    | cons d cs =>
      obtain ⟨fits, rest⟩ := List.isChain_cons_cons.1 chain
      have apart : (isBlank c && d = ')') = false := by
        cases blank : isBlank c with
        | false => rfl
        | true => simp [(fits.1 blank).2.2]
      rw [closeUpClosings, apart, ih rest]
      rfl

theorem dropWhile_isBlank (first : ∀ c ∈ cs.head?, isBlank c = false) :
    cs.dropWhile isBlank = cs := by
  cases cs with
  | nil => rfl
  | cons c cs => exact List.dropWhile_cons_of_neg (by simp [first c rfl])

theorem IsTight.trim (tight : IsTight cs) : trim cs = cs := by
  have last : ∀ c ∈ cs.reverse.head?, isBlank c = false := fun c hc =>
    (tight.last c (by rwa [List.head?_reverse] at hc)).1
  rw [Text.trim, trimStart, dropWhile_isBlank fun c hc => (tight.first c hc).1, trimEnd,
    dropWhile_isBlank last, List.reverse_reverse]

theorem IsTight.squeeze (tight : IsTight cs) : squeeze cs = cs := by
  have chain := tight.chain
  rw [Text.squeeze, tight.trim, collapse_eq_self chain fun c hc => (tight.last c hc).1,
    closeUpOpenings_eq_self chain, closeUpClosings_eq_self chain]

/-! ### Neat texts -/

/-- A piece of a text with its skeleton and its literals. It is balanced, and what lifting and
restoring do to it does not depend on what follows. -/
structure IsPiece (cs skeleton : List Char) (literals : List (List Char)) : Prop where
  balanced : ∀ depth rest, balancedFrom depth false (cs ++ rest) = balancedFrom depth false rest
  lifted : ∀ rest, lift (cs ++ rest) =
    ⟨skeleton ++ (lift rest).skeleton, literals ++ (lift rest).literals⟩
  restored : ∀ rest others,
    restore (skeleton ++ rest) (literals ++ others) = cs ++ restore rest others

namespace IsPiece

theorem nil : IsPiece [] [] [] :=
  ⟨fun _ _ => rfl, fun _ => rfl, fun _ _ => rfl⟩

theorem append (first : IsPiece cs skeleton literals) (second : IsPiece ds skeleton' literals') :
    IsPiece (cs ++ ds) (skeleton ++ skeleton') (literals ++ literals') where
  balanced depth rest := by
    rw [List.append_assoc, first.balanced, second.balanced]
  lifted rest := by
    simp only [List.append_assoc, first.lifted, second.lifted]
  restored rest others := by
    simp only [List.append_assoc, first.restored, second.restored]

theorem lift_char (quote : c ≠ quote) (cs : List Char) :
    lift (c :: cs) = ⟨c :: (lift cs).skeleton, (lift cs).literals⟩ := by
  rw [lift, liftInside, if_neg quote]
  rfl

theorem char (word : IsWordChar c ∨ c = ' ') (free : c ≠ marker) : IsPiece [c] [c] [] := by
  obtain ⟨opening, closing, quote⟩ : c ≠ '(' ∧ c ≠ ')' ∧ c ≠ quote := by
    rcases word with word | rfl
    · exact ⟨word.1, word.2.1, word.2.2.1⟩
    · exact ⟨by decide, by decide, by decide⟩
  refine ⟨fun depth rest => ?_, fun rest => lift_char quote rest, fun rest others => ?_⟩
  · simp [balancedFrom, opening, closing, quote, free]
  · simp [restore, free]

theorem word (word : ∀ c ∈ cs, IsWordChar c ∧ c ≠ marker) : IsPiece cs cs [] := by
  induction cs with
  | nil => exact nil
  | cons c cs ih =>
    obtain ⟨⟨here, free⟩, rest⟩ := List.forall_mem_cons.1 word
    exact (char (.inl here) free).append (ih rest)

/-- Inside a literal nothing counts but its end. -/
theorem balancedFrom_literal (free : Text.quote ∉ cs) (unmarked : marker ∉ cs) (depth : Nat)
    (rest : List Char) :
    balancedFrom depth true (cs ++ Text.quote :: rest) = balancedFrom depth false rest := by
  induction cs with
  | nil =>
    have other : Text.quote ≠ marker := by decide
    simp [balancedFrom, other]
  | cons c cs ih =>
    simp only [List.mem_cons, not_or] at free unmarked
    have := ih free.2 unmarked.2
    simpa [balancedFrom, Ne.symm free.1, Ne.symm unmarked.1] using this

theorem liftInside_literal (free : Text.quote ∉ cs) (seen rest : List Char) :
    liftInside (some seen) (cs ++ Text.quote :: rest) =
      ⟨marker :: (lift rest).skeleton,
        (seen.reverse ++ (cs ++ [Text.quote])) :: (lift rest).literals⟩ := by
  induction cs generalizing seen with
  | nil => simp [liftInside, lift]
  | cons c cs ih =>
    simp only [List.mem_cons, not_or] at free
    rw [List.cons_append, liftInside, if_neg (Ne.symm free.1), ih free.2]
    simp

theorem literal (free : Text.quote ∉ cs) (unmarked : marker ∉ cs) :
    IsPiece (Text.quote :: (cs ++ [Text.quote])) [marker] [Text.quote :: (cs ++ [Text.quote])] where
  balanced depth rest := by
    have other : Text.quote ≠ marker := by decide
    have inside := balancedFrom_literal free unmarked depth rest
    simpa [balancedFrom, other] using inside
  lifted rest := by
    have inside := liftInside_literal free [Text.quote] rest
    simpa [lift, liftInside] using inside
  restored rest others := by simp [restore]

theorem enclosed (piece : IsPiece cs skeleton literals) :
    IsPiece ('(' :: (cs ++ [')'])) ('(' :: (skeleton ++ [')'])) literals where
  balanced depth rest := by
    have opened (cs : List Char) :
        balancedFrom depth false ('(' :: cs) = balancedFrom (depth + 1) false cs := rfl
    have closed : balancedFrom (depth + 1) false (')' :: rest) = balancedFrom depth false rest := rfl
    rw [List.cons_append, opened, List.append_assoc, piece.balanced]
    exact closed
  lifted rest := by
    rw [List.cons_append, lift_char (by decide), List.append_assoc, piece.lifted]
    simp [lift_char (show ')' ≠ Text.quote by decide)]
  restored rest others := by
    have parenthesis {c : Char} (free : c ≠ marker) (cs : List Char) (literals : List (List Char)) :
        restore (c :: cs) literals = c :: restore cs literals := by
      simp [restore, free]
    rw [List.cons_append, parenthesis (by decide), List.append_assoc, piece.restored]
    simp [parenthesis (show ')' ≠ marker by decide)]

end IsPiece

/-- A piece with a tight skeleton is a text on its own that no pass changes. -/
structure IsNeat (cs skeleton : List Char) (literals : List (List Char)) : Prop
    extends IsPiece cs skeleton literals where
  tight : IsTight skeleton

/-- A character that stands for itself in every pass. -/
def IsInert (c : Char) : Prop :=
  IsWordChar c ∧ isBlank c = false ∧ c ≠ marker

namespace IsNeat

theorem word (nonempty : cs ≠ []) (inert : ∀ c ∈ cs, IsInert c) : IsNeat cs cs [] where
  toIsPiece := .word fun c hc => ⟨(inert c hc).1, (inert c hc).2.2⟩
  tight := .of_word nonempty fun c hc =>
    ⟨(inert c hc).2.1, (inert c hc).1.1, (inert c hc).1.2.1⟩

theorem literal (free : Text.quote ∉ cs) (unmarked : marker ∉ cs) :
    IsNeat (Text.quote :: (cs ++ [Text.quote])) [marker] [Text.quote :: (cs ++ [Text.quote])] where
  toIsPiece := .literal free unmarked
  tight := .of_word (by simp) (List.forall_mem_singleton.2 ⟨by decide, by decide, by decide⟩)

theorem space (neat : IsNeat cs skeleton literals) (neat' : IsNeat ds skeleton' literals') :
    IsNeat (cs ++ ' ' :: ds) (skeleton ++ ' ' :: skeleton') (literals ++ literals') where
  toIsPiece := neat.append (.append (.char (.inr rfl) (by decide)) neat'.toIsPiece)
  tight := neat.tight.space neat'.tight

theorem enclosed (neat : IsNeat cs skeleton literals) :
    IsNeat ('(' :: (cs ++ [')'])) ('(' :: (skeleton ++ [')'])) literals where
  toIsPiece := neat.toIsPiece.enclosed
  tight := neat.tight.enclosed

theorem isBalanced (neat : IsNeat cs skeleton literals) : isBalanced cs = true := by
  have whole := neat.balanced 0 []
  rw [List.append_nil] at whole
  rw [Text.isBalanced, whole]
  rfl

theorem clip (neat : IsNeat cs skeleton literals) : clip cs = cs := by
  have lifted := neat.lifted []
  have restored := neat.restored [] []
  have empty : lift [] = ⟨[], []⟩ := rfl
  simp only [List.append_nil, empty] at lifted
  simp only [List.append_nil, restore] at restored
  rw [Text.clip, lifted]
  exact (congrArg (restore · literals) neat.tight.squeeze).trans restored

end IsNeat
end KinQuery.Text
