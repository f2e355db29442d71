import KinQuery.Proofs.Calendar.Spelling
import KinQuery.Proofs.Range.Tree

/-! Reading literals by positions.

A string literal is cut between its quotes, at offsets that count bytes. A date is read from the
fields that its pattern captured, and one is subtracted from the day. A day that two digits spell
may hold a digit of another script, which has no value; such a day counts as zero, from which
nothing can be subtracted. -/
namespace KinQuery

/-- The day of a date, if a text spells one, is spelled with ASCII digits. -/
def Date.HasPlainDay (text : String) : Prop :=
  ∀ day month year, Date.fields? text.toList = some (day, month, year) →
    ∀ c ∈ day, c.isDigit = true

namespace Range

open String (Pos.Raw)

/-- The part of a text between two offsets, both of them between characters. -/
def bytesBetween (text : String) (first last : Nat) : Option String :=
  if h : ((⟨first⟩ : Pos.Raw).IsValid text ∧ (⟨last⟩ : Pos.Raw).IsValid text) ∧ first ≤ last then
    some (text.slice (text.pos ⟨first⟩ h.1.1) (text.pos ⟨last⟩ h.1.2) h.2).copy
  else none

/-- The text between the quotes of a string literal. -/
def unquoted (text : String) : Option String := do
  bytesBetween text 1 (← minus text.utf8ByteSize 1)

/-- The date that a text spells, if it does. -/
def readDate (text : String) : Option (Option Date) :=
  match Date.fields? text.toList with
  | none => some none
  | some (day, month, year) => do
    let captures := [text.toList, day, month, year]
    let day ← captures[1]?
    let month ← captures[2]?
    let year ← captures[3]?
    let before ← minus (Date.fieldValue day) 1
    some (Date.rolledOver? (Date.fieldValue year) (Date.fieldValue month) (before + 1))

end Range

namespace Checked

/-- The family tree, which the session remembers from then on. -/
def tree : Checked FamilyTree :=
  ExceptT.mk fun s => (Range.tree s.genealogy).map fun (tree, genealogy) =>
    (.ok tree, { s with genealogy })

/-- The value of a literal of a given kind. -/
def readLiteral (kind : Kind) (text : String) : Checked Value :=
  if !kind.accepts text then ofRun (KinQuery.readLiteral kind text)
  else match kind with
  | .string => do
    let inner ← step (Range.unquoted text)
    return .string inner
  | .date =>
    if text = "now" then ofRun (KinQuery.readLiteral kind text)
    else do
      match ← step (Range.readDate text) with
      | some d => return .date d
      | none => ofRun (.fail (.notDate text))
  | .person => do
    let tree ← tree
    return People.everyone tree
  | kind => ofRun (KinQuery.readLiteral kind text)

end Checked

namespace Range

open String (Pos.Raw)

variable {text : String}

theorem bytesBetween_eq (before part after : String) :
    bytesBetween (before ++ part ++ after) before.utf8ByteSize
      (before.utf8ByteSize + part.utf8ByteSize) = some part := by
  have first : (⟨before.utf8ByteSize⟩ : Pos.Raw).IsValid (before ++ part ++ after) :=
    Pos.Raw.isValid_iff_exists_append.2
      ⟨before, part ++ after, String.append_assoc, rfl⟩
  have last : (⟨before.utf8ByteSize + part.utf8ByteSize⟩ : Pos.Raw).IsValid
      (before ++ part ++ after) :=
    Pos.Raw.isValid_iff_exists_append.2 ⟨before ++ part, after, rfl, by ext; simp⟩
  obtain ⟨_, same⟩ : ∃ ordered, ((before ++ part ++ after).slice (String.pos _ _ first)
      (String.pos _ _ last) ordered).copy = part :=
    String.copy_slice_eq_iff_splits.2
      ⟨before, after, ⟨String.append_assoc, rfl⟩, ⟨rfl, by ext; simp⟩⟩
  rw [bytesBetween, dif_pos ⟨⟨first, last⟩, Nat.le_add_right _ _⟩, same]

theorem unquoted_eq (quoted : Kind.isQuoted text.toList = true) :
    unquoted text = some (KinQuery.unquoted text) := by
  cases hcs : text.toList with
  | nil => simp [hcs, Kind.isQuoted] at quoted
  | cons c cs =>
    simp only [hcs, Kind.isQuoted, Bool.and_eq_true, decide_eq_true_eq] at quoted
    obtain ⟨⟨rfl, last⟩, -⟩ := quoted
    have inner : KinQuery.unquoted text = .ofList cs.dropLast := by
      rw [KinQuery.unquoted, hcs, List.drop_one, List.tail_cons]
    have whole : text = "'" ++ KinQuery.unquoted text ++ "'" := by
      have ends := List.dropLast_append_getLast? _ last
      rw [inner, String.toList_inj.symm]
      simp only [String.toList_append, String.toList_ofList, hcs]
      exact congrArg (Text.quote :: ·) ends.symm
    generalize KinQuery.unquoted text = part at whole
    have size : "'".utf8ByteSize = 1 := rfl
    rw [whole, unquoted]
    simp only [String.utf8ByteSize_append, size]
    rw [minus_eq (Nat.le_add_left _ _), Option.bind_eq_bind, Option.bind_some, Nat.add_sub_cancel]
    exact bytesBetween_eq "'" part "'"

theorem readDate_eq (plain : Date.HasPlainDay text) : readDate text = some (Date.read? text) := by
  unfold readDate Date.read?
  cases spelled : Date.fields? text.toList with
  | none => rfl
  | some fields =>
    obtain ⟨day, month, year⟩ := fields
    have digits := plain day month year spelled
    obtain ⟨field, -⟩ := Date.fields?_eq_some spelled
    have value : Date.fieldValue day = Nat.ofDigitChars 10 day 0 :=
      Date.fieldValue_of_isDigit (by rintro rfl; cases field) digits
    have positive : 1 ≤ Date.fieldValue day := value ▸ (Date.isDayField_bounds field digits).1
    change (minus (Date.fieldValue day) 1).bind _ = _
    rw [minus_eq positive, Option.bind_some, Nat.sub_add_cancel positive]
    rfl

/-- There is no outcome for exactly the dates with a digit without a value in their day. -/
theorem readDate_eq_none_iff : readDate text = none ↔ ¬ Date.HasPlainDay text := by
  constructor
  · intro outOfRange plain
    rw [readDate_eq plain] at outOfRange
    cases outOfRange
  · intro special
    simp only [Date.HasPlainDay, not_forall] at special
    obtain ⟨day, month, year, spelled, c, member, other⟩ := special
    have unread := Text.readNat?_of_not_isDigit ⟨c, member, Bool.eq_false_iff.2 other⟩
    have zero : Date.fieldValue day = 0 := by rw [Date.fieldValue, unread, Option.getD_none]
    rw [readDate, spelled]
    change (minus (Date.fieldValue day) 1).bind _ = none
    rw [zero]
    rfl

example : readDate "1٣.1.2000" = none := by
  cbv

end Range

namespace Checked
variable {exact : Prop} {s : Session} {kind : Kind} {text : String}

theorem run_tree (reached : s.genealogy.Reachable) : tree.run s = some (Run.tree.run s) := by
  change (Range.tree s.genealogy).map _ = _
  rw [Range.tree_eq reached]
  rfl

/-- Every literal is read in range, but for dates whose day has a digit without a value. -/
theorem readLiteral_follows (reached : s.genealogy.Reachable) (plain : Date.HasPlainDay text) :
    Follows exact (readLiteral kind text) (KinQuery.readLiteral kind text) s := by
  unfold readLiteral
  split
  · exact .refl _
  · rename_i accepted
    cases kind with
    | string =>
      have quoted : Kind.isQuoted text.toList = true := by simpa [Kind.accepts] using accepted
      refine .step_bind (Range.unquoted_eq quoted) ?_
      rw [KinQuery.readLiteral, if_neg accepted]
      exact .pure fun _ => rfl
    | date =>
      dsimp only
      split
      · exact .refl _
      · rename_i other
        refine .step_bind (Range.readDate_eq plain) ?_
        rw [KinQuery.readLiteral, if_neg accepted]
        simp only [if_neg other]
        cases Date.read? text with
        | some d => exact .pure fun _ => rfl
        | none => exact .refl _
    | person =>
      rw [KinQuery.readLiteral, if_neg accepted]
      exact .bind (run_tree reached) fun _ _ _ => .pure fun _ => rfl
    | boolean => exact .refl _
    | numeral => exact .refl _
    | void => exact .refl _
    | list => exact .refl _
    | function => exact .refl _

end Checked
end KinQuery
