import KinQuery.Proofs.Text.Tidy

/-! Texts in which every literal is closed.

Such a text falls into characters outside of literals and whole literals, so what is true of it
is shown along these pieces. Its skeleton has a marker in the place of each literal; unless it has
markers of its own, they are put back where they were, and clipping is tidying. -/
namespace KinQuery.Text

variable {cs ds body : List Char} {c : Char} {edge : Edge} {spot : Spot}

/-- Made of characters outside of literals and of literals. -/
inductive Closed : List Char → Prop
  | nil : Closed []
  | char {c : Char} {cs : List Char} : c ≠ quote → Closed cs → Closed (c :: cs)
  | literal {body cs : List Char} : quote ∉ body → Closed cs →
      Closed (quote :: (body ++ quote :: cs))

/-! ### Where a text ends -/

theorem after_body (free : quote ∉ body) : Spot.literal.after body = .literal := by
  induction body with
  | nil => rfl
  | cons c cs ih =>
    simp only [List.mem_cons, not_or] at free
    rw [Spot.after_cons, Spot.literal_next (Ne.symm free.1), ih free.2]

theorem text_next (other : c ≠ quote) (edge : Edge) :
    ∃ edge', (Spot.text edge).next c = .text edge' := by
  rw [Spot.next, if_neg other]
  split
  · exact ⟨_, rfl⟩
  · split <;> exact ⟨_, rfl⟩

theorem Closed.after (closed : Closed cs) (edge : Edge) :
    ∃ edge', (Spot.text edge).after cs = .text edge' := by
  induction closed generalizing edge with
  | nil => exact ⟨edge, rfl⟩
  | char other _ ih =>
    obtain ⟨edge', next⟩ := text_next other edge
    rw [Spot.after_cons, next]
    exact ih edge'
  | literal free _ ih => simpa [after_body free] using ih .part

/-- A text is closed, or it ends in a literal that is not. -/
theorem closed_or_open (cs : List Char) :
    Closed cs ∨ ∃ before body, Closed before ∧ quote ∉ body ∧ cs = before ++ quote :: body := by
  induction h : cs.length using Nat.strongRecOn generalizing cs with
  | ind n ih =>
    cases cs with
    | nil => exact .inl .nil
    | cons c cs =>
      by_cases here : c = quote
      · subst here
        by_cases more : quote ∈ cs
        · obtain ⟨body, rest, rfl, free⟩ := List.eq_append_cons_of_mem more
          have shorter : rest.length < n := by
            simp only [List.length_cons, List.length_append] at h
            omega
          rcases ih _ shorter rest rfl with closed | ⟨before, last, closed, free', rfl⟩
          · exact .inl (.literal free closed)
          · exact .inr ⟨quote :: (body ++ quote :: before), last, .literal free closed, free',
              by simp⟩
        · exact .inr ⟨[], cs, .nil, more, rfl⟩
      · have shorter : cs.length < n := by
          simp only [List.length_cons] at h
          omega
        rcases ih _ shorter cs rfl with closed | ⟨before, last, closed, free, rfl⟩
        · exact .inl (.char here closed)
        · exact .inr ⟨c :: before, last, .char here closed, free, rfl⟩

theorem closed_iff (edge : Edge) : Closed cs ↔ (Spot.text edge).after cs ≠ .literal := by
  constructor
  · intro closed
    obtain ⟨edge', ends⟩ := closed.after edge
    simp [ends]
  · intro ends
    rcases closed_or_open cs with closed | ⟨before, body, closed, free, rfl⟩
    · exact closed
    · obtain ⟨edge', text⟩ := closed.after edge
      simp [text, after_body free] at ends

theorem closed_append_iff (closed : Closed cs) : Closed (cs ++ ds) ↔ Closed ds := by
  obtain ⟨edge, ends⟩ := closed.after .snug
  rw [closed_iff .snug, closed_iff edge, Spot.after_append, ends]

theorem Closed.append (closed : Closed cs) (closed' : Closed ds) : Closed (cs ++ ds) :=
  (closed_append_iff closed).2 closed'

theorem closed_of_free (free : quote ∉ cs) : Closed cs := by
  induction cs with
  | nil => exact .nil
  | cons c cs ih =>
    simp only [List.mem_cons, not_or] at free
    exact .char (Ne.symm free.1) (ih free.2)

/-! ### Blanks -/

theorem free_of_blanks (blank : ∀ c ∈ cs, isBlank c = true) : quote ∉ cs := fun h => by
  have := blank _ h
  simp at this

theorem closed_of_blanks (blank : ∀ c ∈ cs, isBlank c = true) : Closed cs :=
  closed_of_free (free_of_blanks blank)

theorem after_of_blanks (blank : ∀ c ∈ cs, isBlank c = true) :
    (Spot.text .snug).after cs = .text .snug := by
  induction cs with
  | nil => rfl
  | cons c cs ih =>
    obtain ⟨first, rest⟩ := List.forall_mem_cons.1 blank
    rw [Spot.after_cons, Spot.next_blank first]
    exact ih rest

/-! ### Outside of literals -/

/-- The characters of a text outside of its literals. -/
def outsideFrom : Bool → List Char → List Char
  | _, [] => []
  | true, c :: cs => outsideFrom (c ≠ quote) cs
  | false, c :: cs => if c = quote then outsideFrom true cs else c :: outsideFrom false cs

def outside (cs : List Char) : List Char :=
  outsideFrom false cs


theorem outsideFrom_other (other : c ≠ quote) :
    outsideFrom false (c :: cs) = c :: outsideFrom false cs := by
  rw [outsideFrom, if_neg other]

theorem outsideFrom_body (free : quote ∉ body) :
    outsideFrom true (body ++ quote :: cs) = outside cs := by
  induction body with
  | nil => rfl
  | cons c body ih =>
    simp only [List.mem_cons, not_or] at free
    rw [List.cons_append, outsideFrom, decide_eq_true (Ne.symm free.1), ih free.2]

theorem mem_of_outsideFrom {inLiteral : Bool} (hc : c ∈ outsideFrom inLiteral cs) : c ∈ cs := by
  fun_induction outsideFrom inLiteral cs with
  | case1 => exact hc
  | case2 d cs ih => exact List.mem_cons_of_mem d (ih hc)
  | case3 cs ih => exact List.mem_cons_of_mem _ (ih hc)
  | case4 d cs other ih =>
    rcases List.mem_cons.1 hc with rfl | hc
    · exact List.mem_cons_self
    · exact List.mem_cons_of_mem d (ih hc)

theorem outside_of_free (free : quote ∉ cs) : outside cs = cs := by
  induction cs with
  | nil => rfl
  | cons c cs ih =>
    simp only [List.mem_cons, not_or] at free
    rw [outside, outsideFrom_other (Ne.symm free.1)]
    exact congrArg (c :: ·) (ih free.2)

theorem Closed.outside_append (closed : Closed cs) (ds : List Char) :
    outside (cs ++ ds) = outside cs ++ outside ds := by
  induction closed with
  | nil => rfl
  | char other _ ih =>
    rw [List.cons_append, outside, outsideFrom_other other, outside, outsideFrom_other other]
    exact congrArg (_ :: ·) ih
  | @literal body cs free _ ih =>
    have skipped (cs : List Char) : outside (quote :: (body ++ quote :: cs)) = outside cs :=
      outsideFrom_body free
    rw [List.cons_append, List.append_assoc, List.cons_append, skipped, skipped, ih]

/-! ### Lifting -/

theorem lift_literal (free : quote ∉ body) :
    lift (quote :: (body ++ quote :: cs)) =
      ⟨marker :: (lift cs).skeleton, (quote :: (body ++ [quote])) :: (lift cs).literals⟩ := by
  rw [lift, liftInside, if_pos rfl, IsPiece.liftInside_literal free]
  rfl

theorem lift_of_free (free : quote ∉ cs) : lift cs = ⟨cs, []⟩ := by
  induction cs with
  | nil => rfl
  | cons c cs ih =>
    simp only [List.mem_cons, not_or] at free
    rw [IsPiece.lift_char (Ne.symm free.1), ih free.2]

theorem Closed.lift_append (closed : Closed cs) (ds : List Char) :
    lift (cs ++ ds) = ⟨(lift cs).skeleton ++ (lift ds).skeleton,
      (lift cs).literals ++ (lift ds).literals⟩ := by
  induction closed with
  | nil => rfl
  | char other _ ih => simp [IsPiece.lift_char other, ih]
  | literal free _ ih => simp [lift_literal free, ih]

theorem Closed.skeleton_free (closed : Closed cs) : quote ∉ (lift cs).skeleton := by
  induction closed with
  | nil => simp [lift, liftInside]
  | char other _ ih => simp [IsPiece.lift_char other, ih, Ne.symm other]
  | literal free _ ih =>
    have apart : quote ≠ marker := by decide
    simp [lift_literal free, ih, apart]

/-- Every literal has its marker. -/
theorem Closed.literals_le (closed : Closed cs) :
    (lift cs).literals.length ≤ (lift cs).skeleton.count marker := by
  induction closed with
  | nil => simp [lift, liftInside]
  | char other _ ih =>
    rw [IsPiece.lift_char other]
    exact ih.trans (List.count_le_count_cons)
  | literal free _ ih => simpa [lift_literal free] using ih

theorem Closed.after_skeleton (closed : Closed cs) (edge : Edge) :
    (Spot.text edge).after (lift cs).skeleton = (Spot.text edge).after cs := by
  induction closed generalizing edge with
  | nil => rfl
  | char other _ ih =>
    obtain ⟨edge', next⟩ := text_next other edge
    rw [IsPiece.lift_char other, Spot.after_cons, Spot.after_cons, next, ih]
  | literal free _ ih => simp [lift_literal free, after_body free, ih]

theorem Closed.beginsPart_skeleton (closed : Closed cs) :
    beginsPart (lift cs).skeleton = beginsPart cs := by
  cases closed with
  | nil => rfl
  | char other _ =>
    rw [IsPiece.lift_char other]
    rfl
  | literal free _ =>
    rw [lift_literal free]
    rfl

/-! ### Clipping -/

theorem restore_cons (other : c ≠ marker) (literals : List (List Char)) :
    restore (c :: cs) literals = c :: restore cs literals := by
  simp [restore, other]

theorem restore_lead (edge : Edge) (c : Char) (literals : List (List Char)) :
    restore (edge.lead c ++ cs) literals = edge.lead c ++ restore cs literals := by
  rw [Edge.lead]
  split
  · exact restore_cons (by decide) literals
  · rfl

theorem Closed.clip (closed : Closed cs) :
    clip cs = restore (tidy (.text .snug) (lift cs).skeleton) (lift cs).literals := by
  rw [Text.clip, squeeze_eq_tidy closed.skeleton_free]

theorem tidy_body (free : quote ∉ body) :
    tidy .literal (body ++ quote :: cs) = body ++ quote :: tidy (.text .part) cs := by
  induction body with
  | nil => rfl
  | cons c body ih =>
    simp only [List.mem_cons, not_or] at free
    rw [List.cons_append, tidy_literal, Spot.literal_next (Ne.symm free.1), ih free.2]
    rfl

/-- To tidy the skeleton and put the literals back is to tidy the text, if it has no markers. -/
theorem Closed.restore_tidy (closed : Closed cs) (unmarked : marker ∉ cs) (edge : Edge) :
    restore (tidy (.text edge) (lift cs).skeleton) (lift cs).literals = tidy (.text edge) cs := by
  induction closed generalizing edge with
  | nil => rfl
  | @char c cs other _ ih =>
    simp only [List.mem_cons, not_or] at unmarked
    obtain ⟨edge', next⟩ := text_next other edge
    rw [IsPiece.lift_char other, tidy_cons, tidy_cons, next]
    cases blank : isBlank c with
    | true => rw [Spot.emit_blank blank, List.nil_append, List.nil_append, ih unmarked.2]
    | false =>
      rw [Spot.emit_part blank, List.append_assoc, restore_lead, List.singleton_append,
        restore_cons (Ne.symm unmarked.1), ih unmarked.2]
      simp
  | @literal body cs free _ ih =>
    have rest : marker ∉ cs := fun h => unmarked (by simp [h])
    have due : edge.lead marker = edge.lead quote := by cases edge <;> rfl
    rw [lift_literal free, tidy_cons, Spot.emit_part isBlank_marker, List.append_assoc,
      restore_lead, due, tidy_quote, tidy_body free, Spot.next_marker, List.singleton_append]
    simp [restore, ih rest]

theorem clip_eq_tidy (closed : Closed cs) (unmarked : marker ∉ cs) :
    Text.clip cs = tidy (.text .snug) cs := by
  rw [closed.clip, closed.restore_tidy unmarked]

/-- Blanks around a text are clipped off. -/
theorem Closed.clip_surrounded (closed : Closed cs) {before after : List Char}
    (leading : ∀ c ∈ before, isBlank c = true) (trailing : ∀ c ∈ after, isBlank c = true) :
    Text.clip (before ++ cs ++ after) = Text.clip cs := by
  have opened := (closed_of_blanks leading).append closed
  obtain ⟨edge, ends⟩ := after_of_free closed.skeleton_free .snug
  rw [(opened.append (closed_of_blanks trailing)).clip, closed.clip, opened.lift_append,
    (closed_of_blanks leading).lift_append, lift_of_free (free_of_blanks leading),
    lift_of_free (free_of_blanks trailing), List.append_assoc, tidy_blanks_append leading,
    tidy_append, ends, tidy_blanks trailing]
  simp

/-! ### Balance -/

def Spot.inLiteral : Spot → Bool
  | .literal => true
  | .text _ => false

theorem marker_not_mem_of_balancedFrom {depth : Nat} {inLiteral : Bool}
    (balanced : balancedFrom depth inLiteral cs = true) : marker ∉ cs := by
  have step {c : Char} {cs : List Char} (other : c ≠ marker) (rest : marker ∉ cs) :
      marker ∉ c :: cs := by
    simp [Ne.symm other, rest]
  fun_induction balancedFrom depth inLiteral cs
  case case1 => simp
  case case2 | case6 => cases balanced
  case case3 other ih => exact step other (ih balanced)
  case case4 other _ ih => exact step other (ih balanced)
  case case5 other _ ih => exact step other (ih balanced)
  case case7 other _ _ ih => exact step other (ih balanced)
  case case8 other _ _ _ _ ih => exact step other (ih balanced)

theorem balancedFrom_inside (other : c ≠ marker) (depth : Nat) :
    balancedFrom depth true (c :: cs) = balancedFrom depth (Spot.literal.next c).inLiteral cs := by
  by_cases quoted : c = quote
  · subst quoted
    rfl
  · simp [balancedFrom, other, quoted, Spot.literal_next quoted, Spot.inLiteral]

@[simp] theorem balancedFrom_quote (depth : Nat) :
    balancedFrom depth false (quote :: cs) = balancedFrom depth true cs := rfl

@[simp] theorem balancedFrom_opening (depth : Nat) :
    balancedFrom depth false ('(' :: cs) = balancedFrom (depth + 1) false cs := rfl


@[simp] theorem balancedFrom_closing_succ (depth : Nat) :
    balancedFrom (depth + 1) false (')' :: cs) = balancedFrom depth false cs := rfl

theorem balancedFrom_other (unmarked : c ≠ marker) (quoted : c ≠ quote) (opening : c ≠ '(')
    (closing : c ≠ ')') (depth : Nat) :
    balancedFrom depth false (c :: cs) = balancedFrom depth false cs := by
  simp [balancedFrom, unmarked, quoted, opening, closing]

theorem balancedFrom_blank (blank : isBlank c = true) (depth : Nat) :
    balancedFrom depth false (c :: cs) = balancedFrom depth false cs :=
  balancedFrom_other (ne_of_isBlank blank isBlank_marker) (ne_of_isBlank blank isBlank_quote)
    (ne_of_isBlank blank isBlank_opening) (ne_of_isBlank blank isBlank_closing) depth

theorem after_of_balancedFrom {depth : Nat}
    (balanced : balancedFrom depth spot.inLiteral cs = true) : spot.after cs ≠ .literal := by
  have unmarked := marker_not_mem_of_balancedFrom balanced
  induction cs generalizing depth spot with
  | nil =>
    cases spot with
    | literal => simp [balancedFrom, Spot.inLiteral] at balanced
    | text edge => simp
  | cons c cs ih =>
    simp only [List.mem_cons, not_or] at unmarked
    cases spot with
    | literal =>
      rw [Spot.inLiteral, balancedFrom_inside (Ne.symm unmarked.1)] at balanced
      exact ih balanced unmarked.2
    | text edge =>
      cases role c with
      | quote => exact ih balanced unmarked.2
      | blank blank =>
        rw [Spot.inLiteral, balancedFrom_blank blank] at balanced
        rw [Spot.after_cons, Spot.next_blank blank]
        exact ih balanced unmarked.2
      | opening =>
        rw [Spot.inLiteral, balancedFrom_opening] at balanced
        exact ih balanced unmarked.2
      | closing =>
        cases depth with
        | zero => cases balanced
        | succ depth =>
          rw [Spot.inLiteral, balancedFrom_closing_succ] at balanced
          exact ih balanced unmarked.2
      | plain quoted part opening closing =>
        rw [Spot.inLiteral, balancedFrom_other (Ne.symm unmarked.1) quoted opening closing]
          at balanced
        rw [Spot.after_cons, Spot.next_plain quoted part opening]
        exact ih balanced unmarked.2

theorem closed_of_isBalanced (balanced : isBalanced cs = true) : Closed cs :=
  (closed_iff .snug).2 (after_of_balancedFrom balanced)

theorem balancedFrom_lead (edge : Edge) (c : Char) (depth : Nat) :
    balancedFrom depth false (edge.lead c ++ cs) = balancedFrom depth false cs := by
  rw [Edge.lead]
  split
  · exact balancedFrom_blank isBlank_space depth
  · rfl

/-- Blanks do not count. -/
theorem balancedFrom_tidy (unmarked : marker ∉ cs) (spot : Spot) (depth : Nat) :
    balancedFrom depth spot.inLiteral (tidy spot cs) = balancedFrom depth spot.inLiteral cs := by
  induction cs generalizing spot depth with
  | nil => rfl
  | cons c cs ih =>
    simp only [List.mem_cons, not_or] at unmarked
    cases spot with
    | literal =>
      rw [tidy_literal, Spot.inLiteral, balancedFrom_inside (Ne.symm unmarked.1),
        balancedFrom_inside (Ne.symm unmarked.1), ih unmarked.2]
    | text edge =>
      have rest (edge : Edge) (depth : Nat) :
          balancedFrom depth false (tidy (.text edge) cs) = balancedFrom depth false cs :=
        ih unmarked.2 (.text edge) depth
      rw [Spot.inLiteral]
      cases role c with
      | quote =>
        rw [tidy_quote, balancedFrom_lead, balancedFrom_quote, balancedFrom_quote]
        exact ih unmarked.2 .literal depth
      | blank blank => rw [tidy_blank blank, balancedFrom_blank blank, rest]
      | opening =>
        rw [tidy_opening, balancedFrom_lead, balancedFrom_opening, balancedFrom_opening, rest]
      | closing =>
        rw [tidy_closing]
        cases depth with
        | zero => rfl
        | succ depth => rw [balancedFrom_closing_succ, balancedFrom_closing_succ, rest]
      | plain quoted part opening closing =>
        have other (cs : List Char) :
            balancedFrom depth false (c :: cs) = balancedFrom depth false cs :=
          balancedFrom_other (Ne.symm unmarked.1) quoted opening closing depth
        rw [tidy_plain quoted part opening, balancedFrom_lead, other, other, rest]

/-! ### Clipping a balanced text -/

namespace Edge

/-- Where the machine stands after what it has written: a gap is not written yet. -/
def settled : Edge → Edge
  | .gap => .part
  | edge => edge

end Edge

theorem tidy_lead (part : isBlank c = false) (edge : Edge) :
    tidy (.text edge.settled) (edge.lead c ++ c :: cs) = tidy (.text edge) (c :: cs) := by
  cases edge with
  | snug => rfl
  | part => rfl
  | gap =>
    by_cases closing : c = ')'
    · subst closing
      simp [Edge.settled]
    · rw [Edge.lead_gap closing]
      exact tidy_blank isBlank_space

/-- Tidying changes nothing in a tidy text. -/
theorem tidy_tidy (cs : List Char) :
    tidy .literal (tidy .literal cs) = tidy .literal cs ∧
      ∀ edge : Edge, tidy (.text edge.settled) (tidy (.text edge) cs) = tidy (.text edge) cs := by
  induction cs with
  | nil => exact ⟨rfl, fun _ => rfl⟩
  | cons c cs ih =>
    obtain ⟨inside, outside⟩ := ih
    refine ⟨?_, fun edge => ?_⟩
    · by_cases quoted : c = quote
      · subst quoted
        exact congrArg (quote :: ·) (outside .part)
      · rw [tidy_literal, tidy_literal, Spot.literal_next quoted, inside]
    · cases role c with
      | quote => rw [tidy_quote, tidy_lead isBlank_quote, tidy_quote, inside]
      | blank blank =>
        have same : edge.blanked.settled = edge.settled := by cases edge <;> rfl
        rw [tidy_blank blank, ← same, outside]
      | opening =>
        rw [tidy_opening, tidy_lead isBlank_opening, tidy_opening]
        exact congrArg (_ ++ '(' :: ·) (outside .snug)
      | closing =>
        rw [tidy_closing, tidy_closing]
        exact congrArg (')' :: ·) (outside .part)
      | plain quoted part opening closing =>
        rw [tidy_plain quoted part opening, tidy_lead part, tidy_plain quoted part opening]
        exact congrArg (_ ++ c :: ·) (outside .part)

theorem clip_of_isBalanced (balanced : isBalanced cs = true) :
    Text.clip cs = tidy (.text .snug) cs :=
  clip_eq_tidy (closed_of_isBalanced balanced) (marker_not_mem_of_balancedFrom balanced)

theorem isBalanced_clip (balanced : isBalanced cs = true) : isBalanced (Text.clip cs) = true := by
  rw [clip_of_isBalanced balanced, ← balanced]
  exact balancedFrom_tidy (marker_not_mem_of_balancedFrom balanced) (.text .snug) 0

theorem clip_clip (balanced : isBalanced cs = true) : Text.clip (Text.clip cs) = Text.clip cs := by
  rw [clip_of_isBalanced (isBalanced_clip balanced), clip_of_isBalanced balanced]
  exact (tidy_tidy cs).2 .snug

end KinQuery.Text
