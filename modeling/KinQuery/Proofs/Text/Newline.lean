import KinQuery.Proofs.Text.Script

/-! A newline in a script.

A newline between two parts becomes a space inside of parentheses and ends the term outside of
them; at other places it is dropped. So the terms of a script have one character more, or are one
term more, with it than without it if it stands between two parts, and else they are the same. -/
namespace KinQuery.Text

variable {cs ds seen : List Char} {c : Char} {depth j k : Nat} {within : Within} {edge : Edge}
  {literals : List (List Char)}

/-! ### The length of a clipped text -/

/-- Literals that have their markers are put back whole. -/
theorem length_restore (enough : literals.length ≤ cs.count marker) :
    (restore cs literals).length = cs.countP (· ≠ marker) + literals.flatten.length := by
  induction cs generalizing literals with
  | nil =>
    have none : literals = [] := by simpa using enough
    simp [none, restore]
  | cons c cs ih =>
    by_cases marked : c = marker
    · subst marked
      cases literals with
      | nil =>
        have rest : (restore cs []).length = cs.countP (· ≠ marker) := ih (Nat.zero_le _)
        simp [restore, rest]
      | cons literal literals =>
        rw [List.count_cons_self, List.length_cons, Nat.add_le_add_iff_right] at enough
        simp [restore, ih enough, Nat.add_left_comm]
    · rw [List.count_cons_of_ne marked] at enough
      rw [restore_cons marked, List.length_cons, ih enough,
        List.countP_cons_of_pos (by simpa using marked), Nat.add_right_comm]

/-- What the machine writes for a skeleton, and its literals. -/
def written (edge : Edge) (cs : List Char) : Nat :=
  (tidy (.text edge) (lift cs).skeleton).countP (· ≠ marker) + (lift cs).literals.flatten.length

theorem Closed.length_clip (closed : Closed cs) : (Text.clip cs).length = written .snug cs := by
  rw [closed.clip]
  refine length_restore ?_
  rw [count_marker_tidy]
  exact closed.literals_le

theorem Closed.length_clip_append (closed : Closed cs) (closed' : Closed ds)
    (ends : (Spot.text .snug).after cs = .text edge) :
    (Text.clip (cs ++ ds)).length = (Text.clip cs).length + written edge ds := by
  have ends' := (closed.after_skeleton .snug).trans ends
  rw [(closed.append closed').length_clip, closed.length_clip, written, closed.lift_append,
    tidy_append, ends', List.countP_append, List.flatten_append, List.length_append, written,
    written, Nat.add_add_add_comm]

/-- A gap costs a space if a part follows. -/
theorem Closed.written_gap (closed : Closed cs) :
    written .gap cs = written .part cs + if beginsPart cs then 1 else 0 := by
  rw [written, tidy_gap, closed.beginsPart_skeleton, written]
  split
  · have space : ' ' ≠ marker := by decide
    simp [space, Nat.add_right_comm]
  · rfl

theorem tidy_part (begins : beginsPart cs = true) :
    tidy (.text .part) cs = tidy (.text .snug) cs := by
  cases cs with
  | nil => rfl
  | cons c cs =>
    have part : isBlank c = false := by
      simp only [beginsPart, Bool.and_eq_true, Bool.not_eq_true'] at begins
      exact begins.1
    simp [tidy_cons, Spot.emit_part part, Spot.next, part]

/-- A text that is cut between two parts is clipped part by part. -/
theorem Closed.length_clip_cut (closed : Closed cs) (closed' : Closed ds)
    (ends : (Spot.text .snug).after cs = .text .part) (begins : beginsPart ds = true) :
    (Text.clip (cs ++ ds)).length = (Text.clip cs).length + (Text.clip ds).length := by
  rw [closed.length_clip_append closed' ends, closed'.length_clip, written, written,
    tidy_part (closed'.beginsPart_skeleton.trans begins)]

/-- What a newline costs: one if it stands between two parts. -/
def newlineCost (spot : Spot) (cs : List Char) : Nat :=
  if spot = .text .part ∧ beginsPart cs = true then 1 else 0

theorem Closed.length_clip_newline (closed : Closed cs) (closed' : Closed ds) :
    (Text.clip (cs ++ '\n' :: ds)).length =
      (Text.clip (cs ++ ds)).length + newlineCost ((Spot.text .snug).after cs) ds := by
  obtain ⟨edge, ends⟩ := closed.after .snug
  have blanked : (Spot.text .snug).after (cs ++ ['\n']) = .text edge.blanked := by
    rw [Spot.after_append, ends]
    exact Spot.next_blank isBlank_newline
  have newline : Closed ['\n'] := .char (by decide) .nil
  have nothing : written edge ['\n'] = 0 := by cases edge <;> rfl
  have cost : written edge.blanked ds = written edge ds + newlineCost (.text edge) ds := by
    cases edge with
    | snug => rfl
    | part => simpa [newlineCost] using closed'.written_gap
    | gap => rfl
  rw [List.append_cons, (closed.append newline).length_clip_append closed' blanked, cost,
    closed.length_clip_append newline ends, nothing, closed.length_clip_append closed' ends, ends,
    Nat.add_zero, Nat.add_assoc]

/-- A newline that costs nothing is dropped. -/
theorem Closed.clip_newline (closed : Closed cs) (closed' : Closed ds)
    (free : newlineCost ((Spot.text .snug).after cs) ds = 0) :
    Text.clip (cs ++ '\n' :: ds) = Text.clip (cs ++ ds) := by
  obtain ⟨edge, ends⟩ := closed.after .snug
  have ends' := (closed.after_skeleton .snug).trans ends
  have newline : lift ('\n' :: ds) = ⟨'\n' :: (lift ds).skeleton, (lift ds).literals⟩ :=
    IsPiece.lift_char (by decide) ds
  have dropped : tidy (.text edge) ('\n' :: (lift ds).skeleton) =
      tidy (.text edge) (lift ds).skeleton := by
    rw [tidy_blank isBlank_newline]
    cases edge with
    | snug => rfl
    | gap => rfl
    | part =>
      have apart : beginsPart ds = false := by simpa [newlineCost, ends] using free
      rw [Edge.blanked_part, tidy_gap, closed'.beginsPart_skeleton, apart]
      rfl
  rw [(closed.append (.char (by decide) closed')).clip, (closed.append closed').clip,
    closed.lift_append, closed.lift_append, newline, tidy_append, tidy_append, ends', dropped]

/-! ### The first term -/

/-- A term is open, or something of it was seen that is no blank. -/
def Begun (depth : Nat) (seen : List Char) : Prop :=
  0 < depth ∨ ∃ c ∈ seen, isBlank c = false

namespace Begun

theorem ne_nil (begun : Begun 0 seen) : seen ≠ [] := by
  rintro rfl
  rcases begun with opened | ⟨c, hc, -⟩
  · cases opened
  · cases hc

theorem trim_ne_nil (begun : Begun 0 seen) : (trim seen.reverse).isEmpty = false := by
  rcases begun with opened | ⟨c, hc, part⟩
  · cases opened
  · refine Bool.eq_false_iff.2 fun empty => ?_
    have blank := isBlank_of_trim empty c (List.mem_reverse.2 hc)
    rw [part] at blank
    cases blank

theorem push (begun : Begun depth seen) (c : Char) : Begun depth (c :: seen) :=
  begun.imp_right fun ⟨d, hd, part⟩ => ⟨d, List.mem_cons_of_mem c hd, part⟩

end Begun

/-- How a script goes on that stands in the middle of a term: it cannot be cut, or the term goes
on for some characters, whatever was seen of it, and other terms follow. -/
inductive Continues (depth : Nat) (within : Within) (cs : List Char) : Prop
  | error : (∀ seen, Begun depth seen → (splitInside depth seen within cs).isOk = false) →
      Continues depth within cs
  | ok {ds : List Char} {pieces : List (List Char)} : ds <+: cs → (0 < depth → ds ≠ []) →
      (∀ seen, Begun depth seen → Seen seen within → Closed (seen.reverse ++ ds) ∧
        splitInside depth seen within cs = .ok (clip (seen.reverse ++ ds) :: pieces)) →
      Continues depth within cs

/-- A character that is added to the term. -/
theorem Continues.push {depth' : Nat} {within' : Within} (h : Continues depth' within' cs)
    (same : ∀ seen, Begun depth seen →
      splitInside depth seen within (c :: cs) = splitInside depth' (c :: seen) within' cs)
    (begun : ∀ seen, Begun depth seen → Begun depth' (c :: seen))
    (next : ∀ seen, Seen seen within → Seen (c :: seen) within') :
    Continues depth within (c :: cs) := by
  cases h with
  | error fails =>
    refine .error fun seen here => ?_
    rw [same seen here]
    exact fails _ (begun seen here)
  | @ok ds pieces goes _ known =>
    have known' (seen : List Char) (here : Begun depth seen) (spot : Seen seen within) :
        Closed (seen.reverse ++ c :: ds) ∧ splitInside depth seen within (c :: cs) =
          .ok (clip (seen.reverse ++ c :: ds) :: pieces) := by
      rw [List.append_cons, ← List.reverse_cons, same seen here]
      exact known _ (begun seen here) (next seen spot)
    exact .ok (List.cons_prefix_cons.2 ⟨rfl, goes⟩) (by simp) known'

/-- The term ends with some characters. -/
theorem Continues.last (ds : List Char) (split : Except ScriptFault (List (List Char)))
    (goes : ds <+: cs) (enough : 0 < depth → ds ≠ [])
    (same : ∀ seen, Begun depth seen →
      splitInside depth seen within cs = split.map (clip (seen.reverse ++ ds) :: ·))
    (closed : ∀ seen, Seen seen within → Closed (seen.reverse ++ ds)) :
    Continues depth within cs := by
  cases split with
  | error fault =>
    refine .error fun seen here => ?_
    rw [same seen here]
    rfl
  | ok pieces => exact .ok goes enough fun seen here spot => ⟨closed seen spot, same seen here⟩

/-- What was seen is only put before the first term, so that one run tells of all others. -/
theorem continues (depth : Nat) (plain : Plain within cs) (text : within ≠ .comment) :
    Continues depth within cs := by
  induction cs generalizing depth within with
  | nil =>
    cases within with
    | comment => exact absurd rfl text
    | literal => exact .error fun _ _ => rfl
    | text =>
      cases depth with
      | zero =>
        refine .last [] (.ok []) List.nil_prefix (by simp) (fun seen begun => ?_) fun seen h => ?_
        · simp [splitInside, begun.trim_ne_nil, Except.map]
        · simpa using h.closed (by decide)
      | succ depth => exact .error fun _ _ => rfl
  | cons c cs ih =>
    cases within with
    | comment => exact absurd rfl text
    | literal =>
      exact (ih depth plain.literal (left_ne_comment c)).push (fun _ _ => splitInside_literal)
        (fun _ begun => begun.push c) fun _ h => h.literal c
    | text =>
      cases turn depth c with
      | semicolon => exact plain.not_semicolon.elim
      | gap blank =>
        refine .last [] (splitInside 0 [] .text cs) List.nil_prefix (by simp)
          (fun seen begun => ?_) fun seen h => ?_
        · simp [splitInside_blank_some blank begun.ne_nil]
        · simpa using h.closed (by decide)
      | blank blank =>
        exact (ih _ (plain.blank blank) (by decide)).push (fun _ _ => splitInside_blank_deep blank)
          (fun _ begun => begun.push c) fun _ h => h.blank blank
      | unbalanced => exact .error fun _ _ => rfl
      | last =>
        refine .last [')'] (splitInside 0 [] .text cs) (by simp) (by simp)
          (fun seen _ => ?_) fun seen h => ?_
        · simp [splitInside_closing_one]
        · simpa using (h.char (by decide)).closed (by decide)
      | closing =>
        exact (ih _ (plain.char (by decide)) (by decide)).push
          (fun _ _ => splitInside_closing_deep) (fun _ _ => .inl (Nat.succ_pos _))
          fun _ h => h.char (by decide)
      | part comment part closing =>
        exact (ih (deeper depth c) plain.part (entered_ne_comment c)).push
          (fun _ _ => splitInside_part comment part closing)
          (fun seen _ => .inr ⟨c, List.mem_cons_self, part⟩) fun _ h => h.part c

/-! ### A newline -/

/-- The characters of the terms, and one for each term. -/
def weight : List (List Char) → Nat
  | [] => 0
  | piece :: pieces => piece.length + 1 + weight pieces

@[simp] theorem weight_cons (piece : List Char) (pieces : List (List Char)) :
    weight (piece :: pieces) = piece.length + 1 + weight pieces := rfl

/-- Two ways of cutting a script that fail alike, or the second of which has `k` more spaces and
terms than the first; if it has none, they are the same. -/
inductive Widened (k : Nat) :
    Except ScriptFault (List (List Char)) → Except ScriptFault (List (List Char)) → Prop
  | error {fault fault' : ScriptFault} : Widened k (.error fault) (.error fault')
  | ok {pieces pieces' : List (List Char)} : weight pieces' = weight pieces + k →
      (k = 0 → pieces' = pieces) → Widened k (.ok pieces) (.ok pieces')

namespace Widened

variable {split split' split'' : Except ScriptFault (List (List Char))}

theorem refl (split : Except ScriptFault (List (List Char))) : Widened 0 split split := by
  cases split with
  | error => exact .error
  | ok => exact .ok rfl fun _ => rfl

theorem trans (h : Widened j split split') (h' : Widened k split' split'') :
    Widened (j + k) split split'' := by
  cases h with
  | error =>
    cases h'
    exact .error
  | ok more same =>
    cases h' with
    | ok more' same' =>
      exact .ok (by omega) fun none => (same' (by omega)).trans (same (by omega))

theorem map (piece : List Char) (h : Widened k split split') :
    Widened k (split.map (piece :: ·)) (split'.map (piece :: ·)) := by
  cases h with
  | error => exact .error
  | ok more same =>
    exact .ok (by rw [weight_cons, weight_cons, more, Nat.add_assoc _ _ k])
      fun none => congrArg (piece :: ·) (same none)

theorem isOk_eq (h : Widened k split split') : split'.isOk = split.isOk := by
  cases h <;> rfl

theorem toOption_map_eq_iff {α : Type} {f : List (List Char) → α} (injective : f.Injective)
    (h : Widened k split split') :
    (split'.map f).toOption = (split.map f).toOption ↔ (split.isOk = true → k = 0) := by
  cases h with
  | error => exact iff_of_true rfl fun ok => by cases ok
  | @ok pieces pieces' more same =>
    refine ⟨fun alike _ => ?_, fun free => by rw [same (free rfl)]⟩
    have equal : pieces' = pieces := injective (Option.some.inj alike)
    rw [equal] at more
    omega

theorem of_isOk (fails : split.isOk = false) (fails' : split'.isOk = false) :
    Widened k split split' := by
  cases split with
  | error =>
    cases split' with
    | error => exact .error
    | ok => cases fails'
  | ok => cases fails

end Widened

/-- Outside of parentheses, what was seen of a term ends in a part. -/
structure Placed (depth : Nat) (seen : List Char) (within : Within) : Prop where
  spot : Seen seen within
  word : depth = 0 → within ≠ .literal → seen ≠ [] →
    (Spot.text .snug).after seen.reverse = .text .part

namespace Placed

theorem nil (outer : within ≠ .literal) : Placed depth [] within :=
  ⟨.nil outer, fun _ _ nonempty => absurd rfl nonempty⟩

theorem part (h : Placed depth seen .text) (part : isBlank c = false) :
    Placed (deeper depth c) (c :: seen) (entered c) := by
  refine ⟨h.spot.part c, fun outside text _ => ?_⟩
  obtain ⟨edge, ends⟩ := (h.spot.closed (by decide)).after .snug
  have quoted : c ≠ quote := fun same => text (by rw [entered, if_pos same])
  have opening : c ≠ '(' := fun same => by simp [deeper, same] at outside
  rw [after_push, ends]
  exact Spot.next_plain quoted part opening

theorem literal (h : Placed depth seen .literal) (c : Char) :
    Placed depth (c :: seen) (left c) := by
  refine ⟨h.spot.literal c, fun _ text _ => ?_⟩
  have quoted : c = quote := Decidable.of_not_not fun other => text (by rw [left, if_neg other])
  have inside : (Spot.text .snug).after seen.reverse = .literal :=
    Decidable.of_not_not fun h' => h.spot.1 ((closed_iff .snug).2 h') rfl
  rw [after_push, inside, quoted]
  rfl

theorem deep (spot : Seen seen within) : Placed (depth + 1) seen within :=
  ⟨spot, fun outside => absurd outside (Nat.succ_ne_zero depth)⟩

theorem switch {within' : Within} (h : Placed depth seen within) (text : within ≠ .literal)
    (text' : within' ≠ .literal) : Placed depth seen within' :=
  ⟨iff_of_true (h.spot.closed text) text', fun outside _ => h.word outside text⟩

end Placed

theorem begun_of_part (ends : (Spot.text .snug).after seen.reverse = .text .part) :
    Begun depth seen := by
  refine .inr (Decidable.of_not_not fun none => ?_)
  have blank : ∀ c ∈ seen.reverse, isBlank c = true := fun c hc =>
    Bool.not_eq_false _ ▸ fun part => none ⟨c, List.mem_reverse.1 hc, part⟩
  rw [after_of_blanks blank] at ends
  cases ends

theorem beginsPart_of_prefix (goes : ds <+: cs) (nonempty : ds ≠ []) :
    beginsPart ds = beginsPart cs := by
  obtain ⟨rest, rfl⟩ := goes
  cases ds with
  | nil => exact absurd rfl nonempty
  | cons c ds => rfl

/-- In parentheses a newline is a blank like others: it becomes a space between two parts, and
elsewhere it is dropped. -/
theorem widened_newline_inside (spot : Seen seen .text) (plain : Plain .text cs) :
    Widened (newlineCost ((Spot.text .snug).after seen.reverse) cs)
      (splitInside (depth + 1) seen .text cs)
      (splitInside (depth + 1) seen .text ('\n' :: cs)) := by
  have closed := spot.closed (by decide)
  have begun (seen : List Char) : Begun (depth + 1) seen := .inl (Nat.succ_pos depth)
  rw [splitInside_blank_deep isBlank_newline]
  cases continues (depth + 1) plain (by decide) with
  | error fails => exact .of_isOk (fails _ (begun _)) (fails _ (begun _))
  | @ok ds pieces goes nonempty known =>
    obtain ⟨whole, split⟩ := known _ (begun _) spot
    obtain ⟨-, split'⟩ := known _ (begun _) (spot.blank isBlank_newline)
    have closed' : Closed ds := (closed_append_iff closed).1 whole
    -- The newline meets what the term goes on with, and the script begins with that.
    have cost : newlineCost ((Spot.text .snug).after seen.reverse) ds =
        newlineCost ((Spot.text .snug).after seen.reverse) cs := by
      rw [newlineCost, newlineCost, beginsPart_of_prefix goes (nonempty (Nat.succ_pos depth))]
    rw [split, split', List.reverse_cons, List.append_assoc, List.singleton_append, ← cost]
    refine .ok ?_ fun free => by rw [closed.clip_newline closed' free]
    rw [weight_cons, weight_cons, closed.length_clip_newline closed']
    omega

/-- Outside of parentheses a newline after a part ends the term. -/
theorem widened_newline_outside (spot : Seen seen .text) (plain : Plain .text cs)
    (ends : (Spot.text .snug).after seen.reverse = .text .part) :
    Widened (newlineCost (.text .part) cs) (splitInside 0 seen .text cs)
      ((splitInside 0 [] .text cs).map (clip seen.reverse :: ·)) := by
  have closed := spot.closed (by decide)
  have begun : Begun 0 seen := begun_of_part ends
  cases cs with
  | nil =>
    have split : splitInside 0 seen .text [] = .ok [clip seen.reverse] := by
      simp [splitInside, begun.trim_ne_nil]
    rw [split]
    exact .refl _
  | cons c cs =>
    cases turn 0 c with
    | semicolon => exact plain.not_semicolon.elim
    | gap blank =>
      have free : newlineCost (.text .part) (c :: cs) = 0 := by
        simp [newlineCost, beginsPart, blank]
      rw [splitInside_blank_some blank begun.ne_nil, splitInside_blank_none blank, free]
      exact .refl _
    | unbalanced => exact .error
    | part comment part closing =>
      have begins (cs : List Char) : beginsPart (c :: cs) = true := by
        simp [beginsPart, part, closing]
      have cost : newlineCost (.text .part) (c :: cs) = 1 := by simp [newlineCost, begins]
      have begun (seen : List Char) : Begun (deeper 0 c) (c :: seen) :=
        .inr ⟨c, List.mem_cons_self, part⟩
      rw [splitInside_part comment part closing, splitInside_part comment part closing, cost]
      cases continues (deeper 0 c) plain.part (entered_ne_comment c) with
      | error fails =>
        exact .of_isOk (fails _ (begun _)) (by rw [isOk_map, fails _ (begun _)])
      | @ok ds pieces _ _ known =>
        obtain ⟨-, split⟩ := known _ (begun seen) (spot.part c)
        obtain ⟨closed', split'⟩ := known _ (begun []) (Seen.nil (by decide) |>.part c)
        have cut := closed.length_clip_cut closed' ends (begins ds)
        rw [split, split', List.reverse_cons, List.append_assoc]
        refine .ok ?_ fun none => absurd none (by decide)
        rw [List.reverse_singleton] at cut ⊢
        simp only [weight_cons]
        omega

/-- A newline between two parts becomes a space or ends the term, and elsewhere it changes
nothing. -/
theorem Placed.newline (placed : Placed depth seen .text) (plain : Plain .text cs) :
    Widened (newlineCost ((Spot.text .snug).after seen.reverse) cs)
      (splitInside depth seen .text cs) (splitInside depth seen .text ('\n' :: cs)) := by
  cases depth with
  | succ depth => exact widened_newline_inside placed.spot plain
  | zero =>
    by_cases empty : seen = []
    · rw [empty, splitInside_blank_none isBlank_newline]
      exact .refl _
    · have ends := placed.word rfl (by decide) empty
      rw [splitInside_blank_some isBlank_newline empty, ends]
      exact widened_newline_outside placed.spot plain ends

end KinQuery.Text
