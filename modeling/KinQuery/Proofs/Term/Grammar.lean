import KinQuery.Proofs.Term.Literal
import KinQuery.Proofs.Term.Nesting

/-! The grammar of terms.

A text is cut into tokens in one way or not at all, and a sequence of tokens is the flattening of
at most one term. Reading a text finds just this term; it finds it again in the spelling of the
term, so that reading and writing are inverse on the terms that can be read. -/
namespace KinQuery

open Text (quote isSpace)
open Reading (Stops pending cut_nil cut_word cut_literal_quote cut_literal_other cut_of_stops
  cut_opening cut_closing cut_quote cut_space)

variable {cs word body seen : List Char} {tokens : List Token} {c : Char}

/-! ### Cutting -/

/-- The tokens of a text: parentheses, string literals up to the next quote, and words, which end
where the text goes on with another character or not at all. Spaces are dropped. -/
inductive Cuts : List Char → List Token → Prop
  | nil : Cuts [] []
  | space {c : Char} {cs : List Char} {tokens : List Token} :
      isSpace c = true → Cuts cs tokens → Cuts (c :: cs) tokens
  | opening {cs : List Char} {tokens : List Token} :
      Cuts cs tokens → Cuts ('(' :: cs) (.opening :: tokens)
  | closing {cs : List Char} {tokens : List Token} :
      Cuts cs tokens → Cuts (')' :: cs) (.closing :: tokens)
  | literal {body cs : List Char} {tokens : List Token} : quote ∉ body → Cuts cs tokens →
      Cuts (quote :: (body ++ quote :: cs)) (.atom (.ofList (quote :: (body ++ [quote]))) :: tokens)
  | word {word cs : List Char} {tokens : List Token} : word ≠ [] → (∀ c ∈ word, IsWordChar c) →
      Stops cs → Cuts cs tokens → Cuts (word ++ cs) (.atom (.ofList word) :: tokens)

namespace Reading

theorem cut_body (free : quote ∉ body) (seen cs : List Char) :
    (literal seen).cut (body ++ quote :: cs) =
      ((text []).cut cs).map (.atom (.ofList (seen.reverse ++ (body ++ [quote]))) :: ·) := by
  induction body generalizing seen with
  | nil => simp [cut_literal_quote]
  | cons c body ih =>
    simp only [List.mem_cons, not_or] at free
    rw [List.cons_append, cut_literal_other (Ne.symm free.1), ih free.2]
    simp

theorem cut_run (each : ∀ c ∈ word, IsWordChar c) (seen cs : List Char) :
    (text seen).cut (word ++ cs) = (text (word.reverse ++ seen)).cut cs := by
  induction word generalizing seen with
  | nil => rfl
  | cons c word ih =>
    obtain ⟨first, rest⟩ := List.forall_mem_cons.1 each
    rw [List.cons_append, cut_word first, ih rest]
    simp

theorem pending_reverse (nonempty : word ≠ []) :
    pending word.reverse = [.atom (.ofList word)] := by
  cases reversed : word.reverse with
  | nil => exact absurd (List.reverse_eq_nil_iff.1 reversed) nonempty
  | cons c seen => rw [pending, ← reversed, List.reverse_reverse]

end Reading

namespace Cuts

theorem cut (h : Cuts cs tokens) : (Reading.text []).cut cs = some tokens := by
  induction h with
  | nil => rfl
  | space space _ ih => simp [cut_space space, ih, pending]
  | opening _ ih => simp [ih, pending]
  | closing _ ih => simp [ih, pending]
  | literal free _ ih => simp [Reading.cut_body free, ih, pending]
  | word nonempty each stops _ ih =>
    rw [Reading.cut_run each, List.append_nil, cut_of_stops stops, ih,
      Reading.pending_reverse nonempty]
    rfl

/-- What was read of a word is a token if the text ends the word. -/
theorem ofPending (each : ∀ c ∈ seen, IsWordChar c) (stops : Stops cs) (h : Cuts cs tokens) :
    Cuts (seen.reverse ++ cs) (pending seen ++ tokens) := by
  cases seen with
  | nil => exact h
  | cons c seen => exact .word (by simp) (fun d hd => each d (List.mem_reverse.1 hd)) stops h

/-- Whatever the machine finds, from the middle of a word and from the middle of a literal. -/
theorem of_cut (cs : List Char) :
    (∀ seen tokens, (∀ c ∈ seen, IsWordChar c) → (Reading.text seen).cut cs = some tokens →
        Cuts (seen.reverse ++ cs) tokens) ∧
      ∀ seen tokens, quote ∉ seen → (Reading.literal (seen ++ [quote])).cut cs = some tokens →
        Cuts (quote :: (seen.reverse ++ cs)) tokens := by
  induction cs with
  | nil =>
    refine ⟨fun seen tokens each h => ?_, fun seen tokens free h => nomatch h⟩
    obtain rfl := Option.some.inj h
    have ends : Stops [] := by simp [Stops]
    simpa using ofPending each ends .nil
  | cons c cs ih =>
    obtain ⟨inWord, inLiteral⟩ := ih
    -- a character that ends a word does so before it begins a token of its own
    have ends (stops : Stops (c :: cs))
        (begins : ∀ tokens, (Reading.text []).cut (c :: cs) = some tokens → Cuts (c :: cs) tokens)
        (seen : List Char) (tokens : List Token) (each : ∀ c ∈ seen, IsWordChar c)
        (h : (Reading.text seen).cut (c :: cs) = some tokens) :
        Cuts (seen.reverse ++ c :: cs) tokens := by
      rw [cut_of_stops stops] at h
      obtain ⟨rest, found, rfl⟩ := Option.map_eq_some_iff.1 h
      exact ofPending each stops (begins rest found)
    have fresh (tokens : List Token) (h : (Reading.text []).cut cs = some tokens) :
        Cuts cs tokens := inWord [] tokens (by simp) h
    refine ⟨?_, fun seen tokens free h => ?_⟩
    · cases mark c with
      | opening =>
        refine ends (fun d hd word => word.1 (Option.some.inj hd).symm) fun tokens h => ?_
        rw [cut_opening] at h
        obtain ⟨rest, found, rfl⟩ := Option.map_eq_some_iff.1 h
        exact .opening (fresh rest found)
      | closing =>
        refine ends (fun d hd word => word.2.1 (Option.some.inj hd).symm) fun tokens h => ?_
        rw [cut_closing] at h
        obtain ⟨rest, found, rfl⟩ := Option.map_eq_some_iff.1 h
        exact .closing (fresh rest found)
      | quote =>
        refine ends (fun d hd word => word.2.2.1 (Option.some.inj hd).symm) fun tokens h => ?_
        rw [cut_quote] at h
        obtain ⟨rest, found, rfl⟩ := Option.map_eq_some_iff.1 h
        exact inLiteral [] rest (by simp) found
      | space space =>
        have stops : Stops (c :: cs) := fun d hd word => by
          obtain rfl := Option.some.inj hd
          simp [word.2.2.2] at space
        refine ends stops fun tokens h => ?_
        rw [cut_space space] at h
        obtain ⟨rest, found, rfl⟩ := Option.map_eq_some_iff.1 h
        exact .space space (fresh rest found)
      | word word =>
        intro seen tokens each h
        rw [cut_word word] at h
        simpa using inWord (c :: seen) tokens (List.forall_mem_cons.2 ⟨word, each⟩) h
    · by_cases quoted : c = quote
      · subst quoted
        rw [cut_literal_quote] at h
        obtain ⟨rest, found, rfl⟩ := Option.map_eq_some_iff.1 h
        have free : quote ∉ seen.reverse := by simpa using free
        simpa using Cuts.literal free (fresh rest found)
      · rw [cut_literal_other quoted] at h
        have still : quote ∉ c :: seen := by simpa [free] using Ne.symm quoted
        simpa using inLiteral (c :: seen) tokens still h

end Cuts

theorem cuts_iff : Cuts cs tokens ↔ (Reading.text []).cut cs = some tokens :=
  ⟨Cuts.cut, (Cuts.of_cut cs).1 [] tokens (by simp)⟩

/-- Words and literals are made of the characters of the text. -/
theorem Cuts.subset_of_atom {text : String} (cuts : Cuts cs tokens)
    (member : .atom text ∈ tokens) : text.toList ⊆ cs := by
  induction cuts with
  | nil => cases member
  | space _ _ ih => exact List.subset_cons_of_subset _ (ih member)
  | opening _ ih | closing _ ih =>
    exact List.subset_cons_of_subset _ (ih (by simpa using member))
  | @literal body cs tokens free _ ih =>
    rcases List.mem_cons.1 member with same | member
    · rw [Token.atom.inj same]
      simp
    · have later := ih member
      exact List.subset_cons_of_subset _
        (List.subset_append_of_subset_right _ (List.subset_cons_of_subset _ later))
  | @word word cs tokens _ _ _ _ ih =>
    rcases List.mem_cons.1 member with same | member
    · rw [Token.atom.inj same]
      simp
    · exact List.subset_append_of_subset_right _ (ih member)

/-! ### Assembling -/

namespace Term
variable {t u : Term Value} {parts : List (Term Value)}

/-- Atoms and compounds alone, as in a text. -/
inductive IsSource : Term Value → Prop
  | atom (text : String) : IsSource (.atom text)
  | compound {parts : List (Term Value)} :
      (∀ part ∈ parts, IsSource part) → IsSource (.compound parts)

theorem IsBare.isSource (bare : t.IsBare) : t.IsSource := by
  induction bare with
  | atom => exact .atom _
  | compound _ ih => exact .compound ih

/-- Inside of compounds the tokens of a term are put together to the term. -/
def Assembles (t : Term Value) : Prop :=
  ∀ (parts : List (Term Value)) (stack : List (List (Term Value))) (tokens : List Token),
    assemble (parts :: stack) (t.tokens ++ tokens) = assemble ((t :: parts) :: stack) tokens

theorem assemble_tokensOfParts (each : ∀ part ∈ parts, Assembles part) (seen : List (Term Value))
    (stack : List (List (Term Value))) (tokens : List Token) :
    assemble (seen :: stack) (tokensOfParts parts ++ tokens) =
      assemble ((parts.reverse ++ seen) :: stack) tokens := by
  induction parts generalizing seen with
  | nil => rfl
  | cons part parts ih =>
    obtain ⟨first, rest⟩ := List.forall_mem_cons.1 each
    rw [tokensOfParts, List.append_assoc, first, ih rest]
    simp

theorem IsSource.assembles (source : t.IsSource) : Assembles t := by
  induction source with
  | atom text => exact fun _ _ _ => rfl
  | @compound written _ ih =>
    intro parts stack tokens
    rw [Term.tokens, List.cons_append, List.append_assoc, assemble, assemble_tokensOfParts ih,
      List.append_nil, List.singleton_append, assemble, List.reverse_reverse]

theorem IsSource.assemble_tokens (source : t.IsSource) : assemble [] t.tokens = some t := by
  cases source with
  | atom text => rfl
  | @compound parts each =>
    rw [Term.tokens, assemble, assemble_tokensOfParts fun part h => (each part h).assembles,
      List.append_nil, assemble, if_pos rfl, List.reverse_reverse]

/-- Only one term has given tokens. -/
theorem IsSource.eq_of_tokens (source : t.IsSource) (other : u.IsSource)
    (same : t.tokens = u.tokens) : t = u := by
  have found := source.assemble_tokens
  rw [same, other.assemble_tokens] at found
  exact (Option.some.inj found).symm

theorem IsSource.obeys {g : Vocabulary} (source : t.IsSource)
    (atoms : ∀ text, .atom text ∈ t.tokens → g.atom text) : t.Obeys g := by
  induction source with
  | atom text => exact obeys_atom.2 (atoms text (by simp [tokens]))
  | @compound parts _ ih =>
    refine obeys_compound.2 fun part member => ih part member fun text found => atoms text ?_
    obtain ⟨before, after, rfl⟩ := List.append_of_mem member
    simp [tokens, tokensOfParts_append, tokensOfParts, found]

/-- Without values it does not matter how persons are spelled. -/
theorem IsSource.spellTerm_eq (source : t.IsSource) (person other : Profile → String) :
    Value.spellTerm person t = Value.spellTerm other t := by
  have spellParts_eq {parts : List (Term Value)} (each : ∀ part ∈ parts,
      Value.spellTerm person part = Value.spellTerm other part) :
      Value.spellParts person parts = Value.spellParts other parts := by
    induction parts with
    | nil => rfl
    | cons part parts ih =>
      obtain ⟨first, rest⟩ := List.forall_mem_cons.1 each
      rw [Value.spellParts, Value.spellParts, first, ih rest]
  induction source with
  | atom text => rfl
  | compound _ ih => rw [Value.spellTerm, Value.spellTerm, spellParts_eq ih]

theorem IsBare.parse_display (bare : t.IsBare) : parse t.display = .ok t := by
  rw [display, bare.isSource.spellTerm_eq Value.personTerm Value.personKey]
  exact bare.parse_key

/-! ### Reading -/

/-- A text is read as a term exactly if it is cut into the tokens of the term. -/
theorem parse_eq_ok_iff (text : String) (t : Term Value) :
    parse text = .ok t ↔ t.IsSource ∧ Cuts text.toList t.tokens := by
  refine ⟨fun read => ⟨(isBare_of_parse read).isSource, cuts_iff.2 (cut_of_parse read)⟩, ?_⟩
  rintro ⟨source, cuts⟩
  refine eq_ok_of_toOption ?_
  rw [parse_toOption, cuts.cut, Option.bind_some, source.assemble_tokens]

/-- The reader accepts its grammar and nothing else, and it inverts the spelling of terms: a text
is read as a term exactly if the term holds no values and the text is cut into its tokens, which
are then the only tokens of the text and those of no other term; and the spelling of whatever can
be read is read as the same term. -/
theorem parse_exact :
    (∀ (text : String) (t : Term Value),
        parse text = .ok t ↔ t.IsSource ∧ Cuts text.toList t.tokens) ∧
      (∀ (cs : List Char) (tokens others : List Token),
        Cuts cs tokens → Cuts cs others → tokens = others) ∧
      (∀ t u : Term Value, t.IsSource → u.IsSource → t.tokens = u.tokens → t = u) ∧
      ∀ (text : String) (t : Term Value), parse text = .ok t → parse t.display = .ok t := by
  refine ⟨parse_eq_ok_iff, fun cs tokens others cuts cuts' => ?_, ?_, fun text t read => ?_⟩
  · exact Option.some.inj (cuts.cut.symm.trans cuts'.cut)
  · exact fun t u source other same => source.eq_of_tokens other same
  · exact (isBare_of_parse read).parse_display

/-- Tokens that touch, one of them a literal with parentheses in it. -/
theorem parse_exact_touching :
    Cuts "(f(g)'(a' b)".toList
        (.compound [.atom "f", .compound [.atom "g"], .atom "'(a'", .atom "b"] : Term Value).tokens ∧
      (parse "(f(g)'(a' b)" : Except Position (Term Value)) =
        .ok (.compound [.atom "f", .compound [.atom "g"], .atom "'(a'", .atom "b"]) ∧
      (parse "(f (g) '(a' b)" : Except Position (Term Value)) =
        .ok (.compound [.atom "f", .compound [.atom "g"], .atom "'(a'", .atom "b"]) := by
  have read : (parse "(f(g)'(a' b)" : Except Position (Term Value)) =
      .ok (.compound [.atom "f", .compound [.atom "g"], .atom "'(a'", .atom "b"]) := by rfl
  exact ⟨((parse_exact.1 _ _).1 read).2, read, parse_exact.2.2.2 _ _ read⟩

end Term
end KinQuery
