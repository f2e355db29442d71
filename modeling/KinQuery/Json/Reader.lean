import KinQuery.Json.Basic

/-! Reading JSON documents: no repeated commas, no leading zeros, no raw control characters in
texts, nothing after the document but blanks. What is well-formed but stands for no value is
kept as flawed. -/
namespace KinQuery.Json

def isSpace (c : Char) : Bool :=
  c = ' ' || c = '\t' || c = '\n' || c = '\r'

def skipSpace (cs : List Char) : List Char :=
  cs.dropWhile isSpace

/-! ### Texts -/

def hexValue? (c : Char) : Option Nat :=
  if c.isDigit then some (c.toNat - '0'.toNat)
  else if 'a' ≤ c && c ≤ 'f' then some (c.toNat - 'a'.toNat + 10)
  else if 'A' ≤ c && c ≤ 'F' then some (c.toNat - 'A'.toNat + 10)
  else none

def unit? (a b c d : Char) : Option Nat :=
  [a, b, c, d].foldlM (fun total digit => (hexValue? digit).map (16 * total + ·)) 0

/-- What a backslash and one character stand for. -/
def escaped? : Char → Option Char
  | '"' => some '"'
  | '\\' => some '\\'
  | '/' => some '/'
  | 'b' => some '\x08'
  | 'f' => some '\x0c'
  | 'n' => some '\n'
  | 'r' => some '\r'
  | 't' => some '\t'
  | _ => none

def isHighSurrogate (unit : Nat) : Bool :=
  0xD800 ≤ unit && unit < 0xDC00

def isLowSurrogate (unit : Nat) : Bool :=
  0xDC00 ≤ unit && unit < 0xE000

/-- Reads a text up to its closing quotation mark as code points and halves of surrogate pairs;
`seen` holds what was read, backwards. -/
def takeUnits (seen : List Nat) : List Char → Option (List Nat × List Char)
  | [] => none
  | '"' :: rest => some (seen.reverse, rest)
  | '\\' :: 'u' :: a :: b :: c :: d :: rest =>
    match unit? a b c d with
    | some unit => takeUnits (unit :: seen) rest
    | none => none
  | '\\' :: c :: rest =>
    match escaped? c with
    | some c => takeUnits (c.toNat :: seen) rest
    | none => none
  | c :: rest => if c = '\\' || c.toNat < 0x20 then none else takeUnits (c.toNat :: seen) rest

/-- The character that two halves of a surrogate pair stand for. -/
def paired (high low : Nat) : Char :=
  .ofNat (0x10000 + (high - 0xD800) * 0x400 + (low - 0xDC00))

/-- The characters of code points and surrogate pairs; no half may stand alone. -/
def ofUnits? : List Nat → Option (List Char)
  | [] => some []
  | [unit] => if isHighSurrogate unit || isLowSurrogate unit then none else some [.ofNat unit]
  | unit :: next :: units =>
    if isHighSurrogate unit then
      if isLowSurrogate next then (ofUnits? units).map (paired unit next :: ·) else none
    else if isLowSurrogate unit then none
    else (ofUnits? (next :: units)).map (.ofNat unit :: ·)

/-- Reads a text after its opening quotation mark. A text with half of a surrogate pair is
`none`, but can be read past. -/
def takeText (cs : List Char) : Option (Option String × List Char) :=
  (takeUnits [] cs).map fun (units, rest) => ((ofUnits? units).map .ofList, rest)

/-! ### Numbers -/

/-- At least one digit, and what follows. -/
def takeDigits (cs : List Char) : Option (List Char × List Char) :=
  let digits := cs.takeWhile Char.isDigit
  if digits.isEmpty then none else some (digits, cs.drop digits.length)

/-- A whole part: zero, or digits that do not begin with zero. -/
def takeWhole : List Char → Option (List Char × List Char)
  | '0' :: c :: rest => if c.isDigit then none else some (['0'], c :: rest)
  | cs => takeDigits cs

/-- The digits after a point, if there is one. -/
def takeFraction : List Char → Option (List Char × List Char)
  | '.' :: cs => takeDigits cs
  | cs => some ([], cs)

/-- The number of an exponent, which may have a sign. -/
def takeSigned (cs : List Char) : Option (Int × List Char) :=
  let read (sign : Int) (cs : List Char) := (takeDigits cs).map fun (digits, rest) =>
    (sign * Number.Spelling.valueOf digits, rest)
  match cs with
  | '-' :: cs => read (-1) cs
  | '+' :: cs => read 1 cs
  | cs => read 1 cs

def takeExponent : List Char → Option (Option Int × List Char)
  | e :: cs =>
    if e = 'e' || e = 'E' then (takeSigned cs).map fun (n, rest) => (some n, rest)
    else some (none, e :: cs)
  | [] => some (none, [])

/-- Reads the spelling of a number without its sign. -/
def takeMagnitude (negative : Bool) (cs : List Char) :
    Option (Number.Spelling × List Char) := do
  let (whole, rest) ← takeWhole cs
  let (fraction, rest) ← takeFraction rest
  let (exponent, rest) ← takeExponent rest
  some ({ negative, whole, fraction, exponent }, rest)

def takeNumber : List Char → Option (Number.Spelling × List Char)
  | '-' :: cs => takeMagnitude true cs
  | cs => takeMagnitude false cs

/-! ### Documents -/

/-- A text, or a flaw where there is none. -/
def ofText (read : Option String) : Json :=
  (read.map fun s => .text s).getD .flawed

def ofSpelling (spelling : Number.Spelling) : Json :=
  ((Number.ofSpelling? spelling).map fun n => .number n).getD .flawed

/-- An object, unless one of its keys is no text. -/
def ofMembers (members : List (Option String × Json)) : Json :=
  match members.mapM fun (key, value) => key.map (·, value) with
  | some members => .object members
  | none => .flawed

/-- Reads a value that is neither an array nor an object. -/
def takeScalar : List Char → Option (Json × List Char)
  | '"' :: cs => (takeText cs).map fun (read, rest) => (ofText read, rest)
  | 'n' :: 'u' :: 'l' :: 'l' :: rest => some (.null, rest)
  | 't' :: 'r' :: 'u' :: 'e' :: rest => some (.boolean true, rest)
  | 'f' :: 'a' :: 'l' :: 's' :: 'e' :: rest => some (.boolean false, rest)
  | cs => (takeNumber cs).map fun (spelling, rest) => (ofSpelling spelling, rest)

/-- Reads the key of a member with its colon. -/
def takeKey (cs : List Char) : Option (Option String × List Char) :=
  match skipSpace cs with
  | '"' :: cs => do
    let (key, rest) ← takeText cs
    match skipSpace rest with
    | ':' :: rest => some (key, rest)
    | _ => none
  | _ => none

mutual

/-- Reads one value. The first argument bounds the depth of the calls; twice the length of
the text is always enough. -/
def takeValue : Nat → List Char → Option (Json × List Char)
  | 0, _ => none
  | depth + 1, cs =>
    match skipSpace cs with
    | '[' :: cs =>
      match skipSpace cs with
      | ']' :: rest => some (.array [], rest)
      | cs => (takeItems depth cs).map fun (items, rest) => (.array items, rest)
    | '\x7b' :: cs =>
      match skipSpace cs with
      | '\x7d' :: rest => some (.object [], rest)
      | cs => (takeMembers depth cs).map fun (members, rest) => (ofMembers members, rest)
    | cs => takeScalar cs

/-- Reads the items of an array up to its end, at least one. -/
def takeItems : Nat → List Char → Option (List Json × List Char)
  | 0, _ => none
  | depth + 1, cs => do
    let (item, rest) ← takeValue depth cs
    match skipSpace rest with
    | ',' :: rest => (takeItems depth rest).map fun (items, rest) => (item :: items, rest)
    | ']' :: rest => some ([item], rest)
    | _ => none

/-- Reads the members of an object up to its end, at least one. -/
def takeMembers : Nat → List Char → Option (List (Option String × Json) × List Char)
  | 0, _ => none
  | depth + 1, cs => do
    let (key, rest) ← takeKey cs
    let (value, rest) ← takeValue depth rest
    match skipSpace rest with
    | ',' :: rest =>
      (takeMembers depth rest).map fun (members, rest) => ((key, value) :: members, rest)
    | '\x7d' :: rest => some ([(key, value)], rest)
    | _ => none

end

/-- A bound on the depth of the calls that read a text. -/
def depthFor (cs : List Char) : Nat :=
  2 * cs.length + 2

/-- The document that a text spells. -/
def parse? (text : String) : Option Json := do
  let cs := text.toList
  let (value, rest) ← takeValue (depthFor cs) cs
  guard (skipSpace rest).isEmpty
  some value

end KinQuery.Json
