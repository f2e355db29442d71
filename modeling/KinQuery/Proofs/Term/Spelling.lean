import KinQuery.Proofs.Term.Reading

/-! Terms without values are read back as they are spelled, so terms that are spelled alike
are the same. -/
namespace KinQuery.Term

/-- Made of words and string literals alone. -/
inductive IsBare : Term Value → Prop
  | atom {text : String} : IsAtomText text.toList → IsBare (.atom text)
  | compound {parts : List (Term Value)} : (∀ part ∈ parts, IsBare part) → IsBare (.compound parts)

theorem IsBare.part {parts : List (Term Value)} (h : IsBare (.compound parts))
    {part : Term Value} (member : part ∈ parts) : part.IsBare := by
  cases h with
  | compound each => exact each part member

theorem isBare_of_readQuery {query : String} {t : Term Value} (h : readQuery query = .ok t) :
    t.IsBare :=
  readQuery_induction (fun cs hcs => .atom (by simpa using hcs)) (fun _ => .compound) h

/-- What may follow a word: nothing, or a blank or parenthesis that ends it. -/
inductive Ends : List Char → Prop
  | nil : Ends []
  | space (cs : List Char) : Ends (' ' :: cs)
  | closing (cs : List Char) : Ends (')' :: cs)

/-! ### Tokens -/

theorem inWord_append {cs rest : List Char} (word : ∀ c ∈ cs, IsWordChar c) (ends : Ends rest)
    (first : Position) (seen : List Char) (p : Position) :
    ∃ q, Lexemes.inWord first seen p (cs ++ rest) =
      .next (.atom (.ofList (seen.reverse ++ cs))) first (Lexemes.between q rest) := by
  induction cs generalizing seen p with
  | nil =>
    refine ⟨p, ?_⟩
    cases ends with
    | nil => simp [Lexemes.inWord, Lexemes.between]
    | space cs =>
      have space : Text.isSpace ' ' = true := rfl
      simp [Lexemes.inWord, Lexemes.between, space, Text.quote]
    | closing cs => simp [Lexemes.inWord, Lexemes.between]
  | cons c cs ih =>
    obtain ⟨⟨opening, closing, quote, space⟩, rest⟩ := List.forall_mem_cons.1 word
    obtain ⟨q, hq⟩ := ih rest (c :: seen) (p.after c)
    refine ⟨q, ?_⟩
    simp only [List.cons_append, Lexemes.inWord, opening, closing, quote, space]
    simpa using hq

theorem inLiteral_append {cs : List Char} (free : Text.quote ∉ cs) (rest : List Char)
    (first : Position) (seen : List Char) (p : Position) :
    ∃ q, Lexemes.inLiteral first seen p (cs ++ Text.quote :: rest) =
      .next (.atom (.ofList (seen.reverse ++ (cs ++ [Text.quote])))) first
        (Lexemes.between q rest) := by
  induction cs generalizing seen p with
  | nil => exact ⟨p.after Text.quote, by simp [Lexemes.inLiteral]⟩
  | cons c cs ih =>
    simp only [List.mem_cons, not_or] at free
    obtain ⟨q, hq⟩ := ih free.2 (c :: seen) (p.after c)
    refine ⟨q, ?_⟩
    simp only [List.cons_append, Lexemes.inLiteral, Ne.symm free.1]
    simpa using hq

/-- An atom is one token. -/
theorem between_atom {cs rest : List Char} (atom : IsAtomText cs) (ends : Ends rest)
    (p : Position) :
    ∃ q, Lexemes.between p (cs ++ rest) = .next (.atom (.ofList cs)) p (Lexemes.between q rest) := by
  cases atom with
  | word nonempty word =>
    cases cs with
    | nil => exact absurd rfl nonempty
    | cons c cs =>
      obtain ⟨⟨opening, closing, quote, space⟩, others⟩ := List.forall_mem_cons.1 word
      obtain ⟨q, hq⟩ := inWord_append others ends p [c] (p.after c)
      refine ⟨q, ?_⟩
      simp only [List.cons_append, Lexemes.between, opening, closing, quote, space]
      simpa using hq
  | @literal cs free =>
    obtain ⟨q, hq⟩ := inLiteral_append free rest p [Text.quote] (p.after Text.quote)
    refine ⟨q, ?_⟩
    have opening : Text.quote ≠ '(' := by decide
    have closing : Text.quote ≠ ')' := by decide
    simp only [List.cons_append, List.append_assoc, Lexemes.between, opening, closing, if_false]
    simpa using hq

theorem between_space (p : Position) (cs : List Char) :
    Lexemes.between p (' ' :: cs) = Lexemes.between (p.after ' ') cs := by
  have space : Text.isSpace ' ' = true := rfl
  simp [Lexemes.between, space, Text.quote]

/-! ### Terms -/

/-- The characters of a term. -/
def chars (t : Term Value) : List Char :=
  t.key.toList

/-- The characters of the parts of a compound, with spaces between them. -/
def charsOfParts (parts : List (Term Value)) : List Char :=
  [' '].intercalate (parts.map chars)

theorem chars_atom {text : String} : chars (.atom text) = text.toList := by
  rw [chars, key, Value.spellTerm]

theorem chars_compound (parts : List (Term Value)) :
    chars (.compound parts) = '(' :: (charsOfParts parts ++ [')']) := by
  have spelled : Value.spellParts Value.personKey parts = parts.map key := by
    induction parts with
    | nil => simp [Value.spellParts]
    | cons part parts ih => simp [Value.spellParts, ih, key]
  rw [chars, key, Value.spellTerm, spelled, Value.enclosed]
  simp only [String.toList_append, String.toList_intercalate, List.map_map]
  rfl

/-- To read on after the characters of a term, inside a compound, is to have read the term. -/
def IsRead (t : Term Value) : Prop :=
  ∀ (p : Position) {rest : List Char}, Ends rest →
    ∀ (parts : List (Term Value)) (stack : List (List (Term Value))),
      ∃ q, readInside (parts :: stack) (Lexemes.between p (t.chars ++ rest)) =
        readInside ((t :: parts) :: stack) (Lexemes.between q rest)

/-- The parts of a compound are read one after the other. -/
theorem readInside_charsOfParts (rest : List Char) (stack : List (List (Term Value)))
    {parts : List (Term Value)} (each : ∀ part ∈ parts, IsRead part) (p : Position)
    (seen : List (Term Value)) :
    ∃ q, readInside (seen :: stack) (Lexemes.between p (charsOfParts parts ++ ')' :: rest)) =
      readInside ((parts.reverse ++ seen) :: stack) (Lexemes.between q (')' :: rest)) := by
  induction parts generalizing p seen with
  | nil => exact ⟨p, rfl⟩
  | cons part parts ih =>
    obtain ⟨first, others⟩ := List.forall_mem_cons.1 each
    cases parts with
    | nil =>
      obtain ⟨q, hq⟩ := first p (.closing rest) seen stack
      exact ⟨q, by simpa [charsOfParts] using hq⟩
    | cons next parts =>
      have joined : charsOfParts (part :: next :: parts) ++ ')' :: rest =
          part.chars ++ ' ' :: (charsOfParts (next :: parts) ++ ')' :: rest) := by
        simp [charsOfParts]
      obtain ⟨q, hq⟩ := first p (.space (charsOfParts (next :: parts) ++ ')' :: rest)) seen stack
      obtain ⟨r, hr⟩ := ih others (q.after ' ') (part :: seen)
      refine ⟨r, ?_⟩
      rw [joined, hq, between_space, hr]
      simp

theorem between_opening (p : Position) (cs : List Char) :
    Lexemes.between p ('(' :: cs) = .next .opening p (Lexemes.between (p.after '(') cs) := by
  simp [Lexemes.between]

theorem between_closing (p : Position) (cs : List Char) :
    Lexemes.between p (')' :: cs) = .next .closing p (Lexemes.between (p.after ')') cs) := by
  simp [Lexemes.between]

theorem IsBare.isRead {t : Term Value} (bare : t.IsBare) : IsRead t := by
  induction bare with
  | @atom text atom =>
    intro p rest ends parts stack
    obtain ⟨q, hq⟩ := between_atom atom ends p
    refine ⟨q, ?_⟩
    rw [chars_atom, hq, readInside, String.ofList_toList]
  | @compound parts _ ih =>
    intro p rest ends seen stack
    obtain ⟨q, hq⟩ := readInside_charsOfParts rest (seen :: stack) ih (p.after '(') []
    refine ⟨q.after ')', ?_⟩
    have opened : chars (.compound parts) ++ rest =
        '(' :: (charsOfParts parts ++ ')' :: rest) := by
      simp [chars_compound]
    rw [opened, between_opening, readInside, hq, between_closing, readInside]
    simp

/-- A term without values is read back as it is spelled. -/
theorem IsBare.parse_key {t : Term Value} (bare : t.IsBare) : parse t.key = .ok t := by
  cases bare with
  | @atom text atom =>
    obtain ⟨q, hq⟩ := between_atom atom .nil Position.start
    rw [List.append_nil] at hq
    rw [parse, key, Value.spellTerm, Lexemes.ofText, hq, readInside, Lexemes.between, finish,
      String.ofList_toList]
  | @compound parts each =>
    obtain ⟨q, hq⟩ := readInside_charsOfParts [] [] (fun part h => (each part h).isRead)
      (Position.start.after '(') []
    have spelled : (key (.compound parts)).toList = '(' :: (charsOfParts parts ++ [')']) :=
      chars_compound parts
    rw [parse, spelled, Lexemes.ofText, between_opening, readInside, hq, between_closing,
      readInside, Lexemes.between, finish]
    simp

/-- Terms without values that are spelled alike are the same. -/
theorem IsBare.eq_of_key {t u : Term Value} (bare : t.IsBare) (bare' : u.IsBare)
    (same : t.key = u.key) : t = u := by
  have read := bare.parse_key
  rw [same, bare'.parse_key] at read
  exact (Except.ok.inj read).symm

end KinQuery.Term
