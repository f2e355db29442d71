import KinQuery.Settings.Toml.Moment
import KinQuery.Settings.Toml.Table
import KinQuery.Settings.Toml.Text

/-! Values in TOML documents. -/
namespace KinQuery.Toml

/-! ### Words -/

/-- Drops the underscores of a number, each of which stands between two digits. -/
def dropUnderscores (isDigit : Char → Bool) (before : Bool) : List Char → Option (List Char)
  | [] => some []
  | '_' :: c :: cs => if before && isDigit c then dropUnderscores isDigit true (c :: cs) else none
  | c :: cs =>
    if c = '_' then none else (dropUnderscores isDigit (isDigit c) cs).map (c :: ·)

/-- A whole number of 64 bits with its sign. -/
def integer? (n : Int) : Option Setting :=
  if -9223372036854775808 ≤ n && n < 9223372036854775808 then some (.number (.integer n)) else none

def digitIn? (base : Nat) (c : Char) : Option Nat :=
  (Json.hexValue? c).filter (· < base)

def integerIn? (base : Nat) (cs : List Char) : Option Setting := do
  let digits ← dropUnderscores (fun c => (digitIn? base c).isSome) false cs
  guard (!digits.isEmpty)
  let n ← digits.foldlM (fun total c => (digitIn? base c).map (base * total + ·)) 0
  integer? n

/-- A decimal number after its sign. -/
def decimal? (negative : Bool) (cs : List Char) : Option Setting := do
  let cs ← dropUnderscores Char.isDigit false cs
  let (spelling, []) ← Json.takeMagnitude negative cs | none
  if spelling.isInteger then
    let n : Int := Number.Spelling.valueOf spelling.whole
    integer? (if negative then -n else n)
  else spelling.nearest?.map fun x => .number (.real x)

/-- A number after its sign, which may also be infinite or none at all. -/
def signed? (negative : Bool) (cs : List Char) : Option Setting :=
  match cs with
  | ['i', 'n', 'f'] => some (.number (.real (.infinite negative)))
  | ['n', 'a', 'n'] => some (.number (.real .nan))
  | cs => decimal? negative cs

/-- The value of a word that is no string. -/
def wordValue? (cs : List Char) : Option Setting :=
  match cs with
  | ['t', 'r', 'u', 'e'] => some (.boolean true)
  | ['f', 'a', 'l', 's', 'e'] => some (.boolean false)
  | '0' :: 'x' :: digits => integerIn? 16 digits
  | '0' :: 'o' :: digits => integerIn? 8 digits
  | '0' :: 'b' :: digits => integerIn? 2 digits
  | '+' :: cs => signed? false cs
  | '-' :: cs => signed? true cs
  | cs => (signed? false cs).or ((moment? cs).map .text)

def isWordChar (c : Char) : Bool :=
  isBareKeyChar c || c = '+' || c = '.' || c = ':'

/-- Reads a word. A date and a time may have a space between them. -/
def takeWord (cs : List Char) : List Char × List Char :=
  let word := cs.takeWhile isWordChar
  match cs.drop word.length with
  | ' ' :: c :: rest =>
    if looksLikeDate word && c.isDigit then
      let time := (c :: rest).takeWhile isWordChar
      (word ++ ' ' :: time, (c :: rest).drop time.length)
    else (word, ' ' :: c :: rest)
  | rest => (word, rest)

/-! ### Arrays and inline tables -/

/-- Reads the items of an array up to its end; there may be a comma after the last. -/
def takeItems (takeItem : List Char → Option (Setting × List Char)) :
    (bound : Nat) → List Char → Option (List Setting × List Char)
  | 0, _ => none
  | bound + 1, cs =>
    match skipLayout cs with
    | ']' :: rest => some ([], rest)
    | cs => do
      let (item, rest) ← takeItem cs
      match skipLayout rest with
      | ',' :: rest =>
        (takeItems takeItem bound rest).map fun (items, rest) => (item :: items, rest)
      | ']' :: rest => some ([item], rest)
      | _ => none

/-- Reads a key with its value. -/
def takeEntry (takeItem : List Char → Option (Setting × List Char)) (cs : List Char) :
    Option ((List String × Setting) × List Char) := do
  let (steps, rest) ← takeKey cs.length cs
  let '=' :: rest := rest | none
  let (setting, rest) ← takeItem (skipBlanks rest)
  some ((steps, setting), rest)

/-- Reads the entries of an inline table into a node up to the end of the table; there may be a
comma after the last. -/
def takeEntries (takeItem : List Char → Option (Setting × List Char)) (node : Node) :
    (bound : Nat) → List Char → Option (Setting × List Char)
  | 0, _ => none
  | bound + 1, cs =>
    match skipLayout cs with
    | '\x7d' :: rest => some (node.toSetting, rest)
    | cs => do
      let ((steps, setting), rest) ← takeEntry takeItem cs
      let node ← node.add steps setting
      match skipLayout rest with
      | ',' :: rest => takeEntries takeItem node bound rest
      | '\x7d' :: rest => some (node.toSetting, rest)
      | _ => none

/-- Reads a value that begins here and goes at most `depth` arrays and inline tables deep. -/
def takeValue (depth : Nat) (cs : List Char) : Option (Setting × List Char) :=
  match depth, cs with
  | 0, '[' :: _ => none
  | 0, '\x7b' :: _ => none
  | depth + 1, '[' :: cs =>
    (takeItems (takeValue depth) (cs.length + 1) cs).map fun (items, rest) => (.list items, rest)
  | depth + 1, '\x7b' :: cs =>
    takeEntries (takeValue depth) (.table .header []) (cs.length + 1) cs
  | _, '"' :: cs => (takeString ('"' :: cs)).map fun (s, rest) => (.text s, rest)
  | _, '\x27' :: cs => (takeString ('\x27' :: cs)).map fun (s, rest) => (.text s, rest)
  | _, cs =>
    let (word, rest) := takeWord cs
    (wordValue? word).map (·, rest)

end KinQuery.Toml
