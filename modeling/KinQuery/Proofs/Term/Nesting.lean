import KinQuery.Proofs.Term.Cutting
import KinQuery.Proofs.Term.Spelling

/-! Balance and parsing.

The parser reads tokens with a stack of open compounds; balance counts the parentheses that are
open. Between parentheses of its own a text is read as a term exactly if it is balanced, and then
its tokens are those of a sequence of terms. -/
namespace KinQuery

open Text (Spot quote marker isBalanced balancedFrom)
open Reading (pending cut_nil cut_opening cut_closing cut_quote cut_space cut_word
  cut_literal_quote cut_literal_other)

section Tokens
variable {V : Type} {t : Term V} {parts : List (Term V)} {stack : List (List (Term V))}
  {tokens rest : List Token} {depth : Nat}

/-! ### Reading tokens without places -/

theorem eq_ok_of_toOption {α ε : Type} {x : Except ε α} {a : α} (h : x.toOption = some a) :
    x = .ok a := by
  cases x with
  | error e => cases h
  | ok b => exact congrArg Except.ok (Option.some.inj h)

namespace Term

/-- The term that tokens make after the open compounds of `stack`. -/
def assemble (stack : List (List (Term V))) : List Token → Option (Term V)
  | [] => none
  | .opening :: tokens => assemble ([] :: stack) tokens
  | .closing :: tokens =>
    match stack with
    | [] => none
    | [parts] => if tokens = [] then some (.compound parts.reverse) else none
    | parts :: outer :: stack => assemble ((.compound parts.reverse :: outer) :: stack) tokens
  | .atom text :: tokens =>
    match stack with
    | [] => if tokens = [] then some (.atom text) else none
    | parts :: stack => assemble ((.atom text :: parts) :: stack) tokens

theorem finish_toOption (t : Term V) (lexemes : Lexemes) :
    (finish t lexemes).toOption =
      lexemes.tokens?.bind fun tokens => if tokens = [] then some t else none := by
  cases lexemes with
  | finished place => rfl
  | unclosed place => rfl
  | next token place rest =>
    cases read : rest.tokens? <;> simp [finish, Except.toOption, read]

theorem readInside_toOption (stack : List (List (Term V))) (lexemes : Lexemes) :
    (readInside stack lexemes).toOption = lexemes.tokens?.bind (assemble stack) := by
  induction lexemes generalizing stack with
  | finished place => rfl
  | unclosed place => rfl
  | next token place rest ih =>
    rw [Lexemes.tokens?_next, Option.bind_map]
    cases token with
    | opening => exact ih ([] :: stack)
    | closing =>
      cases stack with
      | nil =>
        rw [readInside]
        cases rest.tokens? <;> rfl
      | cons parts stack =>
        cases stack with
        | nil => exact finish_toOption _ rest
        | cons outer stack => exact ih ((.compound parts.reverse :: outer) :: stack)
    | atom text =>
      cases stack with
      | nil => exact finish_toOption _ rest
      | cons parts stack => exact ih ((.atom text :: parts) :: stack)

theorem parse_toOption (text : String) :
    (parse text : Except Position (Term V)).toOption =
      ((Reading.text []).cut text.toList).bind (assemble []) := by
  rw [parse, readInside_toOption, Lexemes.tokens?_ofText]

/-- The tokens of the open compounds of a stack. -/
def tokensOfStack : List (List (Term V)) → List Token
  | [] => []
  | parts :: stack => tokensOfStack stack ++ .opening :: tokensOfParts parts.reverse

theorem tokensOfParts_append (parts others : List (Term V)) :
    tokensOfParts (parts ++ others) = tokensOfParts parts ++ tokensOfParts others := by
  induction parts with
  | nil => simp [tokensOfParts]
  | cons part parts ih => simp [tokensOfParts, ih]

theorem tokensOfStack_push (t : Term V) (parts : List (Term V)) (stack : List (List (Term V))) :
    tokensOfStack ((t :: parts) :: stack) = tokensOfStack (parts :: stack) ++ t.tokens := by
  simp [tokensOfStack, tokensOfParts_append, tokensOfParts]

/-- Whatever is read has the tokens that were read. -/
theorem tokens_of_assemble (h : assemble stack tokens = some t) :
    tokensOfStack stack ++ tokens = t.tokens := by
  induction tokens generalizing stack with
  | nil => cases h
  | cons token tokens ih =>
    cases token with
    | opening => simpa [tokensOfStack, tokensOfParts] using ih h
    | closing =>
      match stack, h with
      | [parts], h =>
        rw [assemble] at h
        split at h
        · rename_i ended
          cases h
          simp [ended, tokensOfStack, Term.tokens]
        · cases h
      | parts :: outer :: stack, h =>
        rw [← ih h, tokensOfStack_push]
        simp [tokensOfStack, Term.tokens]
    | atom text =>
      match stack, h with
      | [], h =>
        rw [assemble] at h
        split at h
        · rename_i ended
          cases h
          simp [ended, tokensOfStack, Term.tokens]
        · cases h
      | parts :: stack, h =>
        rw [← ih h, tokensOfStack_push]
        simp [Term.tokens]

end Term

/-! ### Nesting -/

/-- Whether parentheses pair up when `depth` of them are open. -/
def nested : Nat → List Token → Bool
  | depth, [] => depth = 0
  | depth, .opening :: tokens => nested (depth + 1) tokens
  | 0, .closing :: _ => false
  | depth + 1, .closing :: tokens => nested depth tokens
  | depth, .atom _ :: tokens => nested depth tokens

theorem nested_atom (text : String) :
    nested depth (.atom text :: tokens) = nested depth tokens := by
  cases depth <;> rfl

theorem nested_opening : nested depth (.opening :: tokens) = nested (depth + 1) tokens := by
  cases depth <;> rfl

theorem nested_pending (seen : List Char) :
    nested depth (pending seen ++ tokens) = nested depth tokens := by
  cases seen with
  | nil => rfl
  | cons c seen => exact nested_atom _

mutual

/-- The parentheses of a term pair up. -/
theorem nested_tokens : ∀ (t : Term V) (depth : Nat) (tokens : List Token),
    nested depth (t.tokens ++ tokens) = nested depth tokens
  | .atom text, depth, tokens => nested_atom text
  | .compound parts, depth, tokens => by
    rw [Term.tokens, List.cons_append, nested_opening, List.append_assoc, nested_tokensOfParts]
    rfl
  | .value v, depth, tokens => by simp [Term.tokens]

theorem nested_tokensOfParts : ∀ (parts : List (Term V)) (depth : Nat) (tokens : List Token),
    nested depth (Term.tokensOfParts parts ++ tokens) = nested depth tokens
  | [], depth, tokens => by simp [Term.tokensOfParts]
  | part :: parts, depth, tokens => by
    rw [Term.tokensOfParts, List.append_assoc, nested_tokens, nested_tokensOfParts]

end

/-- A compound is read up to its end if the tokens before the end pair up. -/
theorem isSome_assemble (parts : List (Term V)) (stack : List (List (Term V)))
    (tokens : List Token) :
    (Term.assemble (parts :: stack) (tokens ++ [.closing])).isSome =
      nested stack.length tokens := by
  induction tokens generalizing parts stack with
  | nil => cases stack <;> rfl
  | cons token tokens ih =>
    cases token with
    | opening =>
      rw [nested_opening]
      exact ih [] (parts :: stack)
    | closing =>
      cases stack with
      | nil => simp [Term.assemble, nested]
      | cons outer stack => exact ih (.compound parts.reverse :: outer) stack
    | atom text =>
      rw [nested_atom]
      exact ih (.atom text :: parts) stack

end Tokens

variable {cs tokens : List Char} {c : Char} {depth : Nat} {text : String}

/-- A text without markers is balanced if it can be cut into tokens whose parentheses pair up. -/
theorem balancedFrom_eq_nested (unmarked : marker ∉ cs) :
    (∀ depth seen, balancedFrom depth false cs = ((Reading.text seen).cut cs).any (nested depth)) ∧
      ∀ depth seen,
        balancedFrom depth true cs = ((Reading.literal seen).cut cs).any (nested depth) := by
  induction cs with
  | nil =>
    refine ⟨fun depth seen => ?_, fun depth seen => ?_⟩
    · have ended : nested depth (pending seen ++ []) = nested depth [] := nested_pending seen
      rw [List.append_nil] at ended
      rw [cut_nil, Option.any_some, ended]
      cases depth <;> rfl
    · simp [balancedFrom, Reading.cut]
  | cons c cs ih =>
    simp only [List.mem_cons, not_or] at unmarked
    obtain ⟨outside, inside⟩ := ih unmarked.2
    refine ⟨fun depth seen => ?_, fun depth seen => ?_⟩
    · cases mark c with
      | opening =>
        rw [Text.balancedFrom_opening, outside (depth + 1) [], cut_opening, Option.any_map]
        simp only [nested_pending, nested_opening]
      | closing =>
        rw [cut_closing, Option.any_map]
        simp only [nested_pending]
        cases depth with
        | zero => cases (Reading.text []).cut cs <;> rfl
        | succ depth => exact outside depth []
      | quote =>
        rw [Text.balancedFrom_quote, inside depth [quote], cut_quote, Option.any_map]
        simp only [nested_pending]
      | space space =>
        rw [Text.balancedFrom_blank (Text.isBlank_of_isSpace space), outside depth [],
          cut_space space, Option.any_map]
        simp only [nested_pending]
      | word word =>
        obtain ⟨opening, closing, quoted, -⟩ := id word
        rw [Text.balancedFrom_other (Ne.symm unmarked.1) quoted opening closing,
          outside depth (c :: seen), cut_word word]
    · rw [Text.balancedFrom_inside (Ne.symm unmarked.1)]
      by_cases quoted : c = quote
      · subst quoted
        rw [cut_literal_quote, Option.any_map]
        simp only [nested_atom]
        exact outside depth []
      · rw [Spot.literal_next quoted, cut_literal_other quoted]
        exact inside depth (c :: seen)

theorem isBalanced_eq_nested (unmarked : marker ∉ cs) :
    isBalanced cs = ((Reading.text []).cut cs).any (nested 0) :=
  (balancedFrom_eq_nested unmarked).1 0 []

/-! ### Texts between parentheses -/

namespace Term
variable {V : Type}

/-- What a text is read as has the tokens of the text. -/
theorem cut_of_parse {t : Term V} (h : parse text = .ok t) :
    (Reading.text []).cut text.toList = some t.tokens := by
  have read := parse_toOption (V := V) text
  rw [h] at read
  obtain ⟨tokens, hcut, made⟩ := Option.bind_eq_some_iff.1 read.symm
  rw [hcut, ← tokens_of_assemble made]
  rfl

theorem isBare_of_parse {t : Term Value} (h : parse text = .ok t) : t.IsBare :=
  readInside_induction (Lexemes.between_each (fun cs hcs => .atom (by simpa using hcs)) _ _)
    (fun _ => .compound) (by simp) h

theorem parse_enclosed_toOption (text : String) :
    (parse ("(" ++ text ++ ")") : Except Position (Term V)).toOption =
      ((Reading.text []).cut text.toList).bind fun tokens =>
        assemble [[]] (tokens ++ [.closing]) := by
  have enclosed : ("(" ++ text ++ ")").toList = '(' :: (text.toList ++ [')']) := by simp
  rw [parse_toOption, enclosed, Reading.cut_enclosed, Option.bind_map]
  rfl

/-- A text that is read between parentheses is read as the compound of what it spells. -/
theorem parse_enclosed_eq_ok {t : Term V} (h : parse ("(" ++ text ++ ")") = .ok t) :
    ∃ parts, t = .compound parts ∧
      (Reading.text []).cut text.toList = some (tokensOfParts parts) := by
  have read := cut_of_parse h
  have enclosed : ("(" ++ text ++ ")").toList = '(' :: (text.toList ++ [')']) := by simp
  rw [enclosed, Reading.cut_enclosed] at read
  obtain ⟨tokens, hcut, same⟩ := Option.map_eq_some_iff.1 read
  cases t with
  | atom word => simp [Term.tokens] at same
  | value v => simp [Term.tokens] at same
  | compound parts =>
    simp only [Term.tokens, List.cons.injEq, true_and, List.append_cancel_right_eq] at same
    exact ⟨parts, rfl, hcut.trans (congrArg some same)⟩

theorem isBalanced_iff_parse_enclosed (unmarked : marker ∉ text.toList) :
    isBalanced text.toList = true ↔ ∃ t : Term V, parse ("(" ++ text ++ ")") = .ok t := by
  have succeeds {α ε : Type} (x : Except ε α) : (∃ a, x = .ok a) ↔ x.toOption.isSome = true := by
    cases x <;> simp [Except.toOption]
  rw [succeeds, parse_enclosed_toOption, isBalanced_eq_nested unmarked]
  cases (Reading.text []).cut text.toList with
  | none => simp
  | some tokens => simp [isSome_assemble]

/-- A text without markers is balanced exactly if it is read as a term between parentheses,
which is to say that it is cut into the tokens of a sequence of terms; so every text that is read
as a term is balanced. -/
theorem isBalanced_iff_parse (unmarked : marker ∉ text.toList) :
    (isBalanced text.toList = true ↔ ∃ t : Term Value, parse ("(" ++ text ++ ")") = .ok t) ∧
      (isBalanced text.toList = true ↔ ∃ parts : List (Term Value), (∀ part ∈ parts, part.IsBare) ∧
        (Lexemes.ofText text.toList).tokens? = some (tokensOfParts parts)) ∧
      ((∃ t : Term Value, parse text = .ok t) → isBalanced text.toList = true) := by
  have enclosed := isBalanced_iff_parse_enclosed (V := Value) unmarked
  refine ⟨enclosed, ⟨fun balanced => ?_, ?_⟩, ?_⟩
  · obtain ⟨t, read⟩ := enclosed.1 balanced
    obtain ⟨parts, rfl, hcut⟩ := parse_enclosed_eq_ok read
    rw [Lexemes.tokens?_ofText]
    exact ⟨parts, fun part => (isBare_of_parse read).part, hcut⟩
  · rintro ⟨parts, -, tokens⟩
    rw [Lexemes.tokens?_ofText] at tokens
    have pairs := nested_tokensOfParts parts 0 []
    rw [List.append_nil] at pairs
    rw [isBalanced_eq_nested unmarked, tokens]
    exact pairs
  · rintro ⟨t, read⟩
    have pairs := nested_tokens t 0 []
    rw [List.append_nil] at pairs
    rw [isBalanced_eq_nested unmarked, cut_of_parse read]
    exact pairs

/-- Two terms that touch, one of them with a parenthesis inside of a literal. -/
theorem isBalanced_iff_parse_touching :
    marker ∉ "(f ')')x".toList ∧ isBalanced "(f ')')x".toList = true ∧
      ∃ t : Term Value, parse ("(" ++ "(f ')')x" ++ ")") = .ok t := by
  have unmarked : marker ∉ "(f ')')x".toList := by decide
  have balanced : isBalanced "(f ')')x".toList = true := by decide
  exact ⟨unmarked, balanced, (isBalanced_iff_parse unmarked).1.1 balanced⟩

end Term
end KinQuery
