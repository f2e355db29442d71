import KinQuery.Json.Reader
import KinQuery.Json.Writer
import Mathlib.Data.List.DropRight

/-! Maps from strings to strings survive being written and read. -/
namespace KinQuery.Json

/-! ### Texts -/

theorem hexValue?_hexDigit : ∀ n < 16, hexValue? (hexDigit n) = some n := by
  decide

theorem unit?_hexDigit {n : Nat} (h : n < 32) :
    unit? '0' '0' (hexDigit (n / 16)) (hexDigit (n % 16)) = some n := by
  have zero : hexValue? '0' = some 0 := by decide
  have high := hexValue?_hexDigit (n / 16) (by omega)
  have low := hexValue?_hexDigit (n % 16) (by omega)
  simp only [unit?, List.foldlM_cons, List.foldlM_nil, zero, high, low]
  simp
  omega

/-- The three ways in which a character is written. -/
inductive Escaped (c : Char) : List Char → Prop
  | short (d : Char) : d ≠ 'u' → escaped? d = some c → Escaped c ['\\', d]
  | long : c.toNat < 0x20 →
      Escaped c ['\\', 'u', '0', '0', hexDigit (c.toNat / 16), hexDigit (c.toNat % 16)]
  | plain : c ≠ '"' → c ≠ '\\' → 0x20 ≤ c.toNat → Escaped c [c]

theorem escape_escaped (c : Char) : Escaped c (escape c) := by
  by_cases quotation : c = '"'
  · exact quotation ▸ .short '"' (by decide) rfl
  by_cases backslash : c = '\\'
  · exact backslash ▸ .short '\\' (by decide) rfl
  by_cases b : c = '\x08'
  · exact b ▸ .short 'b' (by decide) rfl
  by_cases f : c = '\x0c'
  · exact f ▸ .short 'f' (by decide) rfl
  by_cases n : c = '\n'
  · exact n ▸ .short 'n' (by decide) rfl
  by_cases r : c = '\r'
  · exact r ▸ .short 'r' (by decide) rfl
  by_cases t : c = '\t'
  · exact t ▸ .short 't' (by decide) rfl
  simp only [escape, quotation, backslash, b, f, n, r, t, if_false]
  split
  · rename_i control
    exact .long control
  · rename_i printable
    exact .plain quotation backslash (by omega)

theorem takeUnits_plain {c : Char} (quotation : c ≠ '"') (backslash : c ≠ '\\')
    (printable : 0x20 ≤ c.toNat) (seen : List Nat) (rest : List Char) :
    takeUnits seen (c :: rest) = takeUnits (c.toNat :: seen) rest := by
  have notControl : ¬c.toNat < 0x20 := by omega
  rw [takeUnits]
  · simp [backslash, notControl]
  · exact quotation
  · exact fun _ _ _ _ _ h _ => backslash h
  · exact fun _ _ h _ => backslash h

/-- A written character is read back as its code point. -/
theorem takeUnits_escape (c : Char) (seen : List Nat) (rest : List Char) :
    takeUnits seen (escape c ++ rest) = takeUnits (c.toNat :: seen) rest := by
  have written := escape_escaped c
  generalize escape c = cs at written
  cases written with
  | short d notLong hd =>
    simp only [List.cons_append, List.nil_append]
    rw [takeUnits, hd]
    exact fun _ _ _ _ _ h _ => notLong h
  | long control =>
    simp only [List.cons_append, List.nil_append]
    rw [takeUnits, unit?_hexDigit control]
  | plain quotation backslash printable =>
    exact takeUnits_plain quotation backslash printable seen rest

theorem takeUnits_flatMap_escape (cs : List Char) (seen : List Nat) (rest : List Char) :
    takeUnits seen (cs.flatMap escape ++ '"' :: rest) =
      some (seen.reverse ++ cs.map Char.toNat, rest) := by
  induction cs generalizing seen with
  | nil => simp [takeUnits]
  | cons c cs ih =>
    rw [List.flatMap_cons, List.append_assoc, takeUnits_escape, ih]
    simp

theorem not_surrogate (c : Char) :
    isHighSurrogate c.toNat = false ∧ isLowSurrogate c.toNat = false := by
  have valid := c.valid
  simp only [isHighSurrogate, isLowSurrogate, Bool.and_eq_false_iff, decide_eq_false_iff_not]
  rcases valid with valid | valid
  · have : c.toNat < 0xD800 := valid
    omega
  · have : 0xDFFF < c.toNat := valid.1
    omega

theorem ofUnits?_toNat (cs : List Char) : ofUnits? (cs.map Char.toNat) = some cs := by
  induction cs with
  | nil => rfl
  | cons c cs ih =>
    obtain ⟨high, low⟩ := not_surrogate c
    cases cs with
    | nil => simp [ofUnits?, high, low]
    | cons d cs =>
      simp only [List.map_cons] at ih ⊢
      rw [ofUnits?, ih]
      simp [high, low]

/-- The characters of a quoted string. -/
def quotedChars (s : String) : List Char :=
  '"' :: (s.toList.flatMap escape ++ ['"'])

theorem toList_quoted (s : String) : (quoted s).toList = quotedChars s := by
  simp [quoted, quotedChars]

theorem takeText_quoted (s : String) (rest : List Char) :
    takeText (s.toList.flatMap escape ++ '"' :: rest) = some (some s, rest) := by
  rw [takeText, takeUnits_flatMap_escape]
  simp [ofUnits?_toNat]

/-! ### Objects -/

/-- A map from strings to strings, as a document. -/
def ofPairs (pairs : List (String × String)) : Json :=
  .object (pairs.map fun pair => (pair.1, .text pair.2))

/-- The characters of a member, with the end of the line before. -/
def memberChars (pair : String × String) : List Char :=
  ['\n', ' ', ' '] ++ quotedChars pair.1 ++ [':', ' '] ++ quotedChars pair.2

/-- The characters of all members and of what closes the object. -/
def membersChars : List (String × String) → List Char
  | [] => ['\n', '\x7d']
  | [pair] => memberChars pair ++ ['\n', '\x7d']
  | pair :: pairs => memberChars pair ++ ',' :: membersChars pairs

theorem toList_indented (pair : String × String) (pairs : List (String × String)) :
    (indented "" (ofPairs (pair :: pairs))).toList = '\x7b' :: membersChars (pair :: pairs) := by
  have lines (pairs : List (String × String)) :
      indentedMembers "  " (pairs.map fun pair => (pair.1, .text pair.2)) =
        pairs.map fun pair => quoted pair.1 ++ ": " ++ quoted pair.2 := by
    induction pairs with
    | nil => rfl
    | cons pair pairs ih =>
      rw [List.map_cons, List.map_cons, indentedMembers, ih]
      rfl
  have chars (pair : String × String) (pairs : List (String × String)) :
      membersChars (pair :: pairs) =
        '\n' :: ([',', '\n'].intercalate ((pair :: pairs).map fun pair =>
          [' ', ' '] ++ quotedChars pair.1 ++ [':', ' '] ++ quotedChars pair.2) ++
            ['\n', '\x7d']) := by
    induction pairs generalizing pair with
    | nil => simp [membersChars, memberChars]
    | cons next pairs ih =>
      rw [membersChars, ih]
      · simp [memberChars, List.intercalate]
      · simp
  rw [chars, ofPairs, indented, show ("" : String) ++ "  " = "  " from rfl, lines, block,
    if_neg (by simp)]
  simp only [String.toList_append, String.toList_intercalate, List.map_map, Function.comp_def,
    toList_quoted]
  simp

theorem skipSpace_append {blanks : List Char} (hb : ∀ c ∈ blanks, isSpace c = true) {c : Char}
    (hc : isSpace c = false) (cs : List Char) : skipSpace (blanks ++ c :: cs) = c :: cs := by
  induction blanks with
  | nil => simp [skipSpace, hc]
  | cons blank blanks ih =>
    obtain ⟨first, rest⟩ := List.forall_mem_cons.1 hb
    simpa [skipSpace, first] using ih rest

theorem takeKey_quotedChars {blanks : List Char} (hb : ∀ c ∈ blanks, isSpace c = true)
    (key : String) (rest : List Char) :
    takeKey (blanks ++ quotedChars key ++ ':' :: rest) = some (some key, rest) := by
  have skipped : skipSpace (blanks ++ quotedChars key ++ ':' :: rest) =
      '"' :: (key.toList.flatMap escape ++ '"' :: ':' :: rest) := by
    have := skipSpace_append hb (c := '"') rfl (key.toList.flatMap escape ++ '"' :: ':' :: rest)
    simpa [quotedChars] using this
  rw [takeKey, skipped]
  simp only [takeText_quoted]
  rfl

theorem takeValue_quotedChars (depth : Nat) (s : String) (rest : List Char) :
    takeValue (depth + 1) (' ' :: (quotedChars s ++ rest)) = some (.text s, rest) := by
  have skipped : skipSpace (' ' :: (quotedChars s ++ rest)) =
      '"' :: (s.toList.flatMap escape ++ '"' :: rest) := by
    simp [skipSpace, isSpace, quotedChars]
  rw [takeValue, skipped]
  simp [takeScalar, takeText_quoted, ofText]

theorem takeMembers_membersChars (pair : String × String) (pairs : List (String × String))
    (rest : List Char) (depth : Nat) (deep : pairs.length + 2 ≤ depth) :
    takeMembers depth (membersChars (pair :: pairs) ++ rest) =
      some ((pair :: pairs).map fun pair => (some pair.1, .text pair.2), rest) := by
  have blanks : ∀ c ∈ ['\n', ' ', ' '], isSpace c = true := by simp [isSpace]
  induction pairs generalizing pair depth with
  | nil =>
    obtain ⟨depth, rfl⟩ : ∃ n, depth = n + 2 := ⟨depth - 2, by simp at deep; omega⟩
    have key := takeKey_quotedChars blanks pair.1
      (' ' :: (quotedChars pair.2 ++ '\n' :: '\x7d' :: rest))
    have value := takeValue_quotedChars depth pair.2 ('\n' :: '\x7d' :: rest)
    simp only [membersChars, memberChars, List.append_assoc, List.cons_append, List.nil_append]
      at key ⊢
    rw [takeMembers, key]
    simp [value, skipSpace, isSpace]
  | cons next pairs ih =>
    obtain ⟨depth, rfl⟩ : ∃ n, depth = n + 2 := ⟨depth - 2, by simp at deep; omega⟩
    have key := takeKey_quotedChars blanks pair.1
      (' ' :: (quotedChars pair.2 ++ ',' :: (membersChars (next :: pairs) ++ rest)))
    have value := takeValue_quotedChars depth pair.2
      (',' :: (membersChars (next :: pairs) ++ rest))
    have others := ih next (depth + 1) (by simp at deep; omega)
    rw [membersChars]
    · simp only [memberChars, List.append_assoc, List.cons_append, List.nil_append] at key ⊢
      rw [takeMembers, key]
      simp [value, skipSpace, isSpace, others]
    · simp

theorem takeMembers_skipSpace (depth : Nat) (cs : List Char) :
    takeMembers depth (skipSpace cs) = takeMembers depth cs := by
  have key : takeKey (skipSpace cs) = takeKey cs := by
    simp [takeKey, skipSpace, List.dropWhile_idempotent]
  cases depth with
  | zero => simp [takeMembers]
  | succ depth => rw [takeMembers, takeMembers, key]

/-- The members begin with the quotation mark of a key. -/
theorem skipSpace_membersChars (pair : String × String) (pairs : List (String × String)) :
    ∃ rest, skipSpace (membersChars (pair :: pairs)) = '"' :: rest := by
  cases pairs <;> simp [membersChars, memberChars, quotedChars, skipSpace, isSpace]

theorem length_le_membersChars (pairs : List (String × String)) :
    pairs.length ≤ (membersChars pairs).length := by
  induction pairs with
  | nil => simp
  | cons pair pairs ih =>
    cases pairs with
    | nil => simp [membersChars]
    | cons next pairs =>
      rw [membersChars]
      · simp only [List.length_append, List.length_cons] at ih ⊢
        omega
      · simp

theorem ofMembers_pairs (pairs : List (String × String)) :
    ofMembers (pairs.map fun pair => (some pair.1, .text pair.2)) = ofPairs pairs := by
  have all : (pairs.map fun pair => ((some pair.1 : Option String), Json.text pair.2)).mapM
      (fun (member : Option String × Json) => member.1.map (·, member.2)) =
        some (pairs.map fun pair => (pair.1, .text pair.2)) := by
    induction pairs with
    | nil => rfl
    | cons pair pairs ih =>
      simp only [List.map_cons, List.mapM_cons, ih]
      rfl
  unfold ofMembers
  rw [all]
  rfl

theorem takeValue_members {depth : Nat} {cs inside rest : List Char}
    (h : skipSpace cs = '\x7b' :: inside) (first : skipSpace inside = '"' :: rest) :
    takeValue (depth + 1) cs =
      (takeMembers depth ('"' :: rest)).map fun read => (ofMembers read.1, read.2) := by
  rw [takeValue, h]
  simp only [first]
  rfl

theorem parse?_of_takeValue {text : String} {json : Json}
    (h : takeValue (depthFor text.toList) text.toList = some (json, [])) :
    parse? text = some json := by
  rw [parse?, h]
  rfl

/-- A map from strings to strings is read back as it was written. -/
theorem parse?_indented (pairs : List (String × String)) :
    parse? (indented "" (ofPairs pairs)) = some (ofPairs pairs) := by
  cases pairs with
  | nil => rfl
  | cons pair pairs =>
    have short := length_le_membersChars (pair :: pairs)
    simp only [List.length_cons] at short
    obtain ⟨rest, hrest⟩ := skipSpace_membersChars pair pairs
    have members := takeMembers_membersChars pair pairs []
      (2 * ('\x7b' :: membersChars (pair :: pairs)).length + 1) (by simp; omega)
    rw [List.append_nil, ← takeMembers_skipSpace, hrest] at members
    have skipped : skipSpace ('\x7b' :: membersChars (pair :: pairs)) =
        '\x7b' :: membersChars (pair :: pairs) := by
      simp [skipSpace, isSpace]
    have value : takeValue (depthFor ('\x7b' :: membersChars (pair :: pairs)))
        ('\x7b' :: membersChars (pair :: pairs)) = some (ofPairs (pair :: pairs), []) := by
      rw [depthFor, takeValue_members skipped hrest, members, Option.map_some, ofMembers_pairs]
    refine parse?_of_takeValue ?_
    rw [toList_indented]
    exact value

end KinQuery.Json
