import KinQuery.Calendar
import KinQuery.Number

/-! Dates and times in TOML documents: a date, a time, or both with perhaps an offset. They are
kept as texts in one spelling. -/
namespace KinQuery.Toml

/-- Reads a number of exactly so many digits. -/
def takeFixed (width : Nat) (cs : List Char) : Option (Nat × List Char) :=
  let digits := cs.take width
  if digits.length = width && digits.all Char.isDigit then
    some (Number.Spelling.valueOf digits, cs.drop width)
  else none

/-- Reads `YYYY-MM-DD`. -/
def takeDate (cs : List Char) : Option (String × List Char) := do
  let (year, rest) ← takeFixed 4 cs
  let '-' :: rest := rest | none
  let (month, rest) ← takeFixed 2 rest
  let '-' :: rest := rest | none
  let (day, rest) ← takeFixed 2 rest
  guard (Date.make? year month day).isSome
  some (Date.padded 4 year ++ "-" ++ Date.padded 2 month ++ "-" ++ Date.padded 2 day, rest)

/-- Reads the seconds of a time, which may be left out. -/
def takeSeconds : List Char → Option (Nat × List Char)
  | ':' :: cs => takeFixed 2 cs
  | cs => some (0, cs)

/-- Reads a fraction of a second. Only its first nine digits count, and no zeros at its end. -/
def takeFraction : List Char → Option (String × List Char)
  | '.' :: cs =>
    let digits := cs.takeWhile Char.isDigit
    let kept := ((digits.take 9).reverse.dropWhile (· = '0')).reverse
    if digits.isEmpty then none
    else some (.ofList (if kept.isEmpty then [] else '.' :: kept), cs.drop digits.length)
  | cs => some ("", cs)

/-- Reads `HH:MM`, perhaps with seconds and a fraction. -/
def takeTime (cs : List Char) : Option (String × List Char) := do
  let (hour, rest) ← takeFixed 2 cs
  let ':' :: rest := rest | none
  let (minute, rest) ← takeFixed 2 rest
  let hasSeconds := rest.head? = some ':'
  let (second, rest) ← takeSeconds rest
  let (fraction, rest) ← if hasSeconds then takeFraction rest else some ("", rest)
  guard (hour ≤ 24 && minute ≤ 59 && second ≤ 60)
  some (Date.padded 2 hour ++ ":" ++ Date.padded 2 minute ++ ":" ++ Date.padded 2 second ++
    fraction, rest)

/-- The whole rest of a moment after its time: an offset of at most a day, or nothing. -/
def offset? : List Char → Option String
  | [] => some ""
  | ['Z'] => some "Z"
  | ['z'] => some "Z"
  | sign :: cs => do
    guard (sign = '+' || sign = '-')
    let (hours, rest) ← takeFixed 2 cs
    let ':' :: rest := rest | none
    let (minutes, []) ← takeFixed 2 rest | none
    let total := 60 * hours + minutes
    guard (total ≤ 1440)
    some ((if sign = '-' && 0 < total then "-" else "+") ++ Date.padded 2 (total / 60) ++ ":" ++
      Date.padded 2 (total % 60))

/-- Whether a date and nothing else is spelled, but for the range of its numbers. -/
def looksLikeDate (cs : List Char) : Bool :=
  match cs with
  | [a, b, c, d, '-', e, f, '-', g, h] => [a, b, c, d, e, f, g, h].all Char.isDigit
  | _ => false

/-- The date or time that a word spells. -/
def moment? (cs : List Char) : Option String :=
  match takeDate cs with
  | some (date, []) => some date
  | some (date, mark :: rest) => do
    guard (mark = 'T' || mark = 't' || mark = ' ')
    let (time, rest) ← takeTime rest
    (offset? rest).map fun offset => date ++ "T" ++ time ++ offset
  | none =>
    match takeTime cs with
    | some (time, []) => some time
    | _ => none

end KinQuery.Toml
