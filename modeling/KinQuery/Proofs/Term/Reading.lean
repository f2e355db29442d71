import KinQuery.Evaluation.Query
import KinQuery.Proofs.Evaluation.Vocabulary

/-! The terms that are read from texts: they hold no values, and their atoms are words or
string literals. -/
namespace KinQuery

variable {g : Vocabulary}

/-- Neither a blank that separates terms nor a character that stands for itself. -/
def IsWordChar (c : Char) : Prop :=
  c ≠ '(' ∧ c ≠ ')' ∧ c ≠ Text.quote ∧ Text.isSpace c = false

/-- A literal between quotes or a word. -/
inductive IsAtomText : List Char → Prop
  | word {cs : List Char} : cs ≠ [] → (∀ c ∈ cs, IsWordChar c) → IsAtomText cs
  | literal {cs : List Char} : Text.quote ∉ cs → IsAtomText (Text.quote :: (cs ++ [Text.quote]))

namespace Lexemes

/-- Every atom of the tokens is of a sort. -/
def Each (A : String → Prop) : Lexemes → Prop
  | .finished _ => True
  | .unclosed _ => True
  | .next (.atom text) _ rest => A text ∧ Each A rest
  | .next _ _ rest => Each A rest

variable {A : String → Prop}

theorem word_each (proper : ∀ cs, IsAtomText cs → A (.ofList cs)) {seen : List Char}
    (nonempty : seen ≠ []) (word : ∀ c ∈ seen, IsWordChar c) : A (.ofList seen.reverse) :=
  proper _ (.word (by simpa using nonempty) (by simpa using word))

/-- Wherever reading stands, between atoms, in a word or in a literal, every atom to come is of a
sort of which all words and literals are. -/
theorem each_from (proper : ∀ cs, IsAtomText cs → A (.ofList cs)) (cs : List Char) :
    (∀ p, (between p cs).Each A) ∧
      (∀ first seen p, seen ≠ [] → (∀ c ∈ seen, IsWordChar c) → (inWord first seen p cs).Each A) ∧
      ∀ first seen p, Text.quote ∉ seen → (inLiteral first (seen ++ [Text.quote]) p cs).Each A := by
  induction cs with
  | nil =>
    refine ⟨fun p => by simp [between, Each], fun first seen p nonempty word => ?_,
      fun first seen p open_ => by simp [inLiteral, Each]⟩
    exact ⟨word_each proper nonempty word, trivial⟩
  | cons c cs ih =>
    obtain ⟨between', inWord', inLiteral'⟩ := ih
    refine ⟨fun p => ?_, fun first seen p nonempty word => ?_, fun first seen p open_ => ?_⟩
    · unfold between
      split
      · exact between' _
      · split
        · exact between' _
        · split
          · rename_i quote
            exact quote ▸ inLiteral' p [] _ (by simp)
          · split
            · exact between' _
            · rename_i opening closing quote space
              refine inWord' p [c] _ (by simp) ?_
              simpa using ⟨opening, closing, quote, by simpa using space⟩
    · have atom := word_each proper nonempty word
      unfold inWord
      split
      · exact ⟨atom, between' _⟩
      · split
        · exact ⟨atom, between' _⟩
        · split
          · rename_i quote
            exact ⟨atom, quote ▸ inLiteral' p [] _ (by simp)⟩
          · split
            · exact ⟨atom, between' _⟩
            · rename_i opening closing quote space
              refine inWord' first (c :: seen) _ (by simp) ?_
              exact List.forall_mem_cons.2
                ⟨⟨opening, closing, quote, by simpa using space⟩, word⟩
    · unfold inLiteral
      split
      · rename_i closed
        refine ⟨proper _ ?_, between' _⟩
        subst closed
        have literal : IsAtomText (Text.quote :: (seen.reverse ++ [Text.quote])) :=
          .literal (by simpa using open_)
        simpa using literal
      · rename_i other
        have still : Text.quote ∉ c :: seen := by
          simpa [open_] using fun h => other h.symm
        exact inLiteral' first (c :: seen) _ still

theorem between_each (proper : ∀ cs, IsAtomText cs → A (.ofList cs)) (p : Position)
    (cs : List Char) : (between p cs).Each A :=
  (each_from proper cs).1 p

end Lexemes

namespace Term

theorem finish_eq_ok {t u : Term Value} {rest : Lexemes} (h : finish t rest = .ok u) : u = t := by
  cases rest <;> cases h
  rfl

section Induction
variable {P : Term Value → Prop}

/-- What is known of the atoms read, and of compounds if it is known of their parts. -/
theorem readInside_induction {lexemes : Lexemes} {t : Term Value}
    (atoms : lexemes.Each fun text => P (.atom text))
    (compound : ∀ parts, (∀ part ∈ parts, P part) → P (.compound parts))
    {stack : List (List (Term Value))} (good : ∀ parts ∈ stack, ∀ part ∈ parts, P part)
    (h : readInside stack lexemes = .ok t) : P t := by
  induction lexemes generalizing stack with
  | finished place => simp [readInside] at h
  | unclosed place => simp [readInside] at h
  | next token place rest ih =>
    cases token with
    | opening =>
      exact ih atoms (List.forall_mem_cons.2 ⟨by simp, good⟩) h
    | closing =>
      match stack, good, h with
      | [], _, h => simp [readInside] at h
      | [parts], good, h =>
        rw [finish_eq_ok h]
        exact compound _ (by simpa using good)
      | parts :: outer :: stack, good, h =>
        obtain ⟨first, rest⟩ := List.forall_mem_cons.1 good
        obtain ⟨second, others⟩ := List.forall_mem_cons.1 rest
        have closed : P (.compound parts.reverse) := compound _ (by simpa using first)
        refine ih atoms (List.forall_mem_cons.2 ⟨?_, others⟩) h
        exact List.forall_mem_cons.2 ⟨closed, second⟩
    | atom text =>
      obtain ⟨atom, atoms⟩ := atoms
      match stack, good, h with
      | [], _, h =>
        rw [finish_eq_ok h]
        exact atom
      | parts :: stack, good, h =>
        obtain ⟨first, others⟩ := List.forall_mem_cons.1 good
        refine ih atoms (List.forall_mem_cons.2 ⟨?_, others⟩) h
        exact List.forall_mem_cons.2 ⟨atom, first⟩

end Induction
end Term

/-- A term just read is made of words and string literals. -/
theorem readQuery_induction {P : Term Value → Prop} {query : String} {t : Term Value}
    (atom : ∀ cs, IsAtomText cs → P (.atom (.ofList cs)))
    (compound : ∀ parts, (∀ part ∈ parts, P part) → P (.compound parts))
    (h : readQuery query = .ok t) : P t := by
  unfold readQuery at h
  split at h
  · split at h
    · rename_i u hu
      cases h
      exact Term.readInside_induction (Lexemes.between_each atom _ _) compound (by simp) hu
    · cases h
  · cases h

theorem readQuery_obeys (proper : ∀ cs, IsAtomText cs → g.atom (.ofList cs)) {query : String}
    {t : Term Value} (h : readQuery query = .ok t) : t.Obeys g :=
  readQuery_induction (fun cs hcs => Term.obeys_atom.2 (proper cs hcs))
    (fun _ => Term.obeys_compound.2) h

/-- A term just read holds no values, so only its atoms have to be allowed by another
vocabulary. -/
theorem Term.Obeys.of_readQuery {k : Vocabulary} {query : String} {t : Term Value}
    (obeys : t.Obeys g) (h : readQuery query = .ok t)
    (atom : ∀ text, g.atom text → IsAtomText text.toList → k.atom text) : t.Obeys k :=
  readQuery_induction (P := fun t => t.Obeys g → t.Obeys k)
    (fun cs hcs here => Term.obeys_atom.2 (atom _ (Term.obeys_atom.1 here) (by simpa using hcs)))
    (fun _ each here => Term.obeys_compound.2 fun part member =>
      each part member (Term.obeys_compound.1 here part member)) h obeys

end KinQuery
