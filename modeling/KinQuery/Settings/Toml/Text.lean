import KinQuery.Json.Reader
import KinQuery.Settings.KeyPath
import KinQuery.Settings.Toml.Layout

/-! Strings and keys in TOML documents. Basic strings stand between quotation marks and have
escapes, literal strings stand between apostrophes and have none. Three marks in place of one
let a string go over several lines. -/
namespace KinQuery.Toml

/-! ### Escapes -/

def hexNumber? (cs : List Char) : Option Nat :=
  cs.foldlM (fun total c => (Json.hexValue? c).map (16 * total + ·)) 0

/-- The character of a code point that is no half of a surrogate pair. -/
def scalar? (n : Nat) : Option Char :=
  if n < 0xD800 || (0xE000 ≤ n && n < 0x110000) then some (.ofNat n) else none

/-- How many hexadecimal digits follow a letter after a backslash. -/
def escapeWidth? : Char → Option Nat
  | 'x' => some 2
  | 'u' => some 4
  | 'U' => some 8
  | _ => none

/-- What a backslash and a letter stand for. -/
def shortEscape? : Char → Option Char
  | '"' => some '"'
  | '\\' => some '\\'
  | 'b' => some '\x08'
  | 'e' => some '\x1b'
  | 'f' => some '\x0c'
  | 'n' => some '\n'
  | 'r' => some '\r'
  | 't' => some '\t'
  | _ => none

/-- Reads an escape after its backslash. -/
def takeEscape : List Char → Option (Char × List Char)
  | [] => none
  | c :: cs =>
    match escapeWidth? c with
    | some width => do
      let digits := cs.take width
      guard (digits.length = width)
      let char ← (hexNumber? digits).bind scalar?
      some (char, cs.drop width)
    | none => (shortEscape? c).map (·, cs)

/-! ### Strings on one line -/

/-- Reads a basic string up to its closing mark; `seen` holds what was read, backwards. -/
def takeBasic (seen : List Char) : (bound : Nat) → List Char → Option (String × List Char)
  | 0, _ => none
  | _, [] => none
  | bound + 1, c :: cs =>
    if c = '"' then some (.ofList seen.reverse, cs)
    else if c = '\\' then
      match takeEscape cs with
      | some (char, rest) => takeBasic (char :: seen) bound rest
      | none => none
    else if isPlain c then takeBasic (c :: seen) bound cs
    else none

/-- Reads a literal string up to its closing mark. -/
def takeLiteral (cs : List Char) : Option (String × List Char) :=
  let text := cs.takeWhile (· ≠ '\x27')
  match cs.drop text.length with
  | _ :: rest => if text.all isPlain then some (.ofList text, rest) else none
  | [] => none

/-! ### Strings over several lines -/

/-- The end of a string over several lines: three marks, before which the string may itself end
in one or two of them. Returns how many belong to the string. -/
def closing? (mark : Char) (cs : List Char) : Option (Nat × List Char) :=
  let marks := cs.takeWhile (· = mark)
  if 3 ≤ marks.length then
    let count := min marks.length 5
    some (count - 3, cs.drop count)
  else none

def skipBlankLines : (bound : Nat) → List Char → List Char
  | 0, cs => cs
  | bound + 1, cs =>
    match takeLineEnd (skipBlanks cs) with
    | some rest => skipBlankLines bound rest
    | none => skipBlanks cs

/-- Skips the end of a line after a backslash, and the blanks that the next line begins with. -/
def skipContinuation (cs : List Char) : Option (List Char) :=
  (takeLineEnd (skipBlanks cs)).map fun rest => skipBlankLines (rest.length + 1) rest

/-- Reads a string over several lines up to its closing marks. -/
def takeLong (mark : Char) (seen : List Char) :
    (bound : Nat) → List Char → Option (String × List Char)
  | 0, _ => none
  | _, [] => none
  | bound + 1, c :: cs =>
    match closing? mark (c :: cs) with
    | some (extra, rest) => some (.ofList (seen.reverse ++ List.replicate extra mark), rest)
    | none =>
      if c = '\\' && mark = '"' then
        match skipContinuation cs with
        | some rest => takeLong mark seen bound rest
        | none =>
          match takeEscape cs with
          | some (char, rest) => takeLong mark (char :: seen) bound rest
          | none => none
      else if c = '\r' && cs.head? = some '\n' then takeLong mark (c :: seen) bound cs
      else if isPlain c || c = '\n' then takeLong mark (c :: seen) bound cs
      else none

/-- The end of a line right after the opening marks is no part of the string. -/
def takeLongText (mark : Char) (cs : List Char) : Option (String × List Char) :=
  takeLong mark [] (cs.length + 1) ((takeLineEnd cs).getD cs)

/-- Reads a string that begins here; `none` if there is none, or if it is broken. -/
def takeString : List Char → Option (String × List Char)
  | '"' :: '"' :: '"' :: cs => takeLongText '"' cs
  | '\x27' :: '\x27' :: '\x27' :: cs => takeLongText '\x27' cs
  | '"' :: cs => takeBasic [] (cs.length + 1) cs
  | '\x27' :: cs => takeLiteral cs
  | _ => none

/-! ### Keys -/

/-- Reads one step of a key: a bare word, or a string on one line. -/
def takeKeyStep (cs : List Char) : Option (String × List Char) :=
  match cs with
  | '"' :: cs => takeBasic [] (cs.length + 1) cs
  | '\x27' :: cs => takeLiteral cs
  | cs =>
    let word := cs.takeWhile isBareKeyChar
    if word.isEmpty then none else some (.ofList word, cs.drop word.length)

/-- Reads a key: steps with dots between them, and blanks around all of them. -/
def takeKey : (bound : Nat) → List Char → Option (List String × List Char)
  | 0, _ => none
  | bound + 1, cs => do
    let (step, rest) ← takeKeyStep (skipBlanks cs)
    match skipBlanks rest with
    | '.' :: rest => (takeKey bound rest).map fun (steps, rest) => (step :: steps, rest)
    | rest => some ([step], rest)

end KinQuery.Toml
