import KinQuery.Proofs.Text.Newline

/-! Scripts without their comments.

A comment is skipped together with the newline that ends it. So a script is cut into the terms
of the script without comments except where only that newline stands between two parts: there the
parts are joined. -/
namespace KinQuery.Text

variable {cs seen : List Char} {c : Char} {depth : Nat} {within : Within}

/-- Drops the comments of a script, and keeps the newlines that end them. -/
def uncommentedFrom : Within → List Char → List Char
  | _, [] => []
  | .literal, c :: cs => c :: uncommentedFrom (left c) cs
  | .comment, c :: cs =>
    if c = '\n' then '\n' :: uncommentedFrom .text cs else uncommentedFrom .comment cs
  | .text, c :: cs =>
    if c = ';' then uncommentedFrom .comment cs else c :: uncommentedFrom (entered c) cs

def uncommented (script : String) : String :=
  .ofList (uncommentedFrom .text script.toList)

/-- What a script without its comments stands in the middle of. -/
def resumed : Within → Within
  | .literal => .literal
  | .text | .comment => .text

@[simp] theorem resumed_entered (c : Char) : resumed (entered c) = entered c := by
  rw [entered]
  split <;> rfl

@[simp] theorem resumed_left (c : Char) : resumed (left c) = left c := by
  rw [left]
  split <;> rfl

theorem plain_uncommentedFrom (within : Within) (cs : List Char) :
    Plain (resumed within) (uncommentedFrom within cs) := by
  induction cs generalizing within with
  | nil => cases within <;> simp [Plain, uncommentedFrom, outsideFrom]
  | cons c cs ih =>
    cases within with
    | literal => exact .of_left (by simpa using ih (left c))
    | comment =>
      rw [uncommentedFrom]
      split
      · exact .of_entered (by decide) (ih .text)
      · exact ih .comment
    | text =>
      rw [uncommentedFrom]
      split
      · exact ih .comment
      · rename_i other
        exact .of_entered other (by simpa using ih (entered c))

/-- How many comments end in a newline that is all that stands between two parts. `spot` is where
the current term ends so far, and `depth` counts its open parentheses. -/
def joinsFrom (depth : Nat) (spot : Spot) : Within → List Char → Nat
  | _, [] => 0
  | .literal, c :: cs => joinsFrom depth (spot.next c) (left c) cs
  | .comment, c :: cs =>
    if c = '\n' then joinsFrom depth spot .text cs + newlineCost spot (uncommentedFrom .text cs)
    else joinsFrom depth spot .comment cs
  | .text, c :: cs =>
    if c = ';' then joinsFrom depth spot .comment cs
    else if isBlank c && depth = 0 then joinsFrom 0 (.text .snug) .text cs
    else if c = ')' then
      match depth with
      | 0 | 1 => joinsFrom 0 (.text .snug) .text cs
      | depth + 2 => joinsFrom (depth + 1) (spot.next c) .text cs
    else joinsFrom (deeper depth c) (spot.next c) (entered c) cs

/-- The places at which a script loses a space or the end of a term to a comment. -/
def joins (script : String) : Nat :=
  joinsFrom 0 (.text .snug) .text script.toList

theorem uncommentedFrom_part (comment : c ≠ ';') :
    uncommentedFrom .text (c :: cs) = c :: uncommentedFrom (entered c) cs :=
  if_neg comment

theorem uncommentedFrom_blank (blank : isBlank c = true) :
    uncommentedFrom .text (c :: cs) = c :: uncommentedFrom .text cs := by
  rw [uncommentedFrom_part (ne_semicolon_of_isBlank blank), entered,
    if_neg (ne_of_isBlank blank isBlank_quote)]

theorem uncommentedFrom_closing :
    uncommentedFrom .text (')' :: cs) = ')' :: uncommentedFrom .text cs := rfl

theorem joinsFrom_gap (blank : isBlank c = true) (spot : Spot) :
    joinsFrom 0 spot .text (c :: cs) = joinsFrom 0 (.text .snug) .text cs := by
  simp [joinsFrom, blank, ne_semicolon_of_isBlank blank]

theorem joinsFrom_blank (blank : isBlank c = true) (spot : Spot) :
    joinsFrom (depth + 1) spot .text (c :: cs) = joinsFrom (depth + 1) (spot.next c) .text cs := by
  simp [joinsFrom, ne_semicolon_of_isBlank blank, ne_of_isBlank blank isBlank_closing, deeper,
    ne_of_isBlank blank isBlank_opening, entered, ne_of_isBlank blank isBlank_quote]

theorem joinsFrom_part (comment : c ≠ ';') (part : isBlank c = false) (closing : c ≠ ')')
    (spot : Spot) : joinsFrom depth spot .text (c :: cs) =
      joinsFrom (deeper depth c) (spot.next c) (entered c) cs := by
  simp [joinsFrom, comment, part, closing]

/-- From wherever the rest of a script is cut, it is cut alike without its comments, but for a
space or the end of a term at each place where a comment joins two parts. -/
def Loosens (cs : List Char) : Prop :=
  ∀ (depth : Nat) (seen : List Char) (within : Within), Placed depth seen within →
    Widened (joinsFrom depth ((Spot.text .snug).after seen.reverse) within cs)
      (splitInside depth seen within cs)
      (splitInside depth seen (resumed within) (uncommentedFrom within cs))

namespace Loosens

theorem nil : Loosens [] := by
  intro depth seen within placed
  cases within with
  | literal => exact .error
  | comment => exact .refl (splitInside depth seen .text [])
  | text => exact .refl _

theorem push (loosens : Loosens cs) (same : resumed within = within)
    (placed : Placed depth (c :: seen) within) :
    Widened (joinsFrom depth (((Spot.text .snug).after seen.reverse).next c) within cs)
      (splitInside depth (c :: seen) within cs)
      (splitInside depth (c :: seen) within (uncommentedFrom within cs)) := by
  have rest := loosens depth (c :: seen) within placed
  rwa [after_push, same] at rest

theorem fresh (loosens : Loosens cs) :
    Widened (joinsFrom 0 (.text .snug) .text cs) (splitInside 0 [] .text cs)
      (splitInside 0 [] .text (uncommentedFrom .text cs)) :=
  loosens 0 [] .text (.nil (by decide))

theorem text (loosens : Loosens cs) (c : Char) (placed : Placed depth seen .text) :
    Widened (joinsFrom depth ((Spot.text .snug).after seen.reverse) .text (c :: cs))
      (splitInside depth seen .text (c :: cs))
      (splitInside depth seen .text (uncommentedFrom .text (c :: cs))) := by
  cases turn depth c with
  | semicolon =>
    rw [splitInside_semicolon]
    exact loosens depth seen .comment (placed.switch (by decide) (by decide))
  | gap blank =>
    rw [joinsFrom_gap blank, uncommentedFrom_blank blank]
    by_cases empty : seen = []
    · rw [empty, splitInside_blank_none blank, splitInside_blank_none blank]
      exact loosens.fresh
    · rw [splitInside_blank_some blank empty, splitInside_blank_some blank empty]
      exact loosens.fresh.map _
  | blank blank =>
    rw [joinsFrom_blank blank, uncommentedFrom_blank blank, splitInside_blank_deep blank,
      splitInside_blank_deep blank]
    exact loosens.push rfl (.deep (placed.spot.blank blank))
  | unbalanced => exact .error
  | last =>
    rw [uncommentedFrom_closing, splitInside_closing_one, splitInside_closing_one]
    exact loosens.fresh.map _
  | closing =>
    rw [uncommentedFrom_closing, splitInside_closing_deep, splitInside_closing_deep]
    exact loosens.push rfl (.deep (placed.spot.char (by decide)))
  | part comment part closing =>
    rw [joinsFrom_part comment part closing, uncommentedFrom_part comment,
      splitInside_part comment part closing, splitInside_part comment part closing]
    exact loosens.push (resumed_entered c) (placed.part part)

theorem cons (loosens : Loosens cs) (c : Char) : Loosens (c :: cs) := by
  intro depth seen within placed
  cases within with
  | literal => exact loosens.push (resumed_left c) (placed.literal c)
  | comment =>
    rw [splitInside_comment, joinsFrom, uncommentedFrom]
    split
    · have text : Placed depth seen .text := placed.switch (by decide) (by decide)
      -- The newline that is kept is all that the two scripts differ in from here on.
      exact (loosens depth seen .text text).trans (text.newline (plain_uncommentedFrom .text cs))
    · exact loosens depth seen .comment placed
  | text => exact loosens.text c placed

end Loosens

theorem loosens (cs : List Char) : Loosens cs := by
  induction cs with
  | nil => exact .nil
  | cons c cs ih => exact ih.cons c

/-- A script and the same without its comments can be cut alike or not at all, and into the same
terms exactly if no comment joins two parts. -/
theorem splitTerms_uncommented (script : String) :
    (splitTerms (uncommented script)).isOk = (splitTerms script).isOk ∧
      ((splitTerms (uncommented script)).toOption = (splitTerms script).toOption ↔
        ((splitTerms script).isOk = true → joins script = 0)) := by
  have widened : Widened (joins script) (splitInside 0 [] .text script.toList)
      (splitInside 0 [] .text (uncommentedFrom .text script.toList)) :=
    (loosens script.toList).fresh
  have cut : splitTerms (uncommented script) =
      (splitInside 0 [] .text (uncommentedFrom .text script.toList)).map (·.map .ofList) := by
    rw [splitTerms, uncommented, String.toList_ofList]
  rw [cut, splitTerms, isOk_map, isOk_map]
  exact ⟨widened.isOk_eq, widened.toOption_map_eq_iff
    (List.map_injective_iff.2 fun _ _ => String.ofList_injective)⟩

/-- A comment joins the word before it to the word on the next line. -/
theorem splitTerms_joins_words :
    splitTerms "a;x\nb" = .ok ["ab"] ∧ splitTerms (uncommented "a;x\nb") = .ok ["a", "b"] := by
  decide

end KinQuery.Text
