import KinQuery.Text.Blank
import KinQuery.Text.Digit

/-! Calendar dates, and the two ways they are spelled.

Terms spell a date as day, month and year with dots between. The day of such a spelling is
not held against the length of its month: the days beyond the end run into the next month.
Records spell a date as year, month and day with hyphens between, and only real days. -/
namespace KinQuery

def isLeapYear (year : Int) : Bool :=
  year % 4 = 0 && (year % 100 ≠ 0 || year % 400 = 0)

def daysInMonth (year : Int) (month : Nat) : Nat :=
  if month = 2 then if isLeapYear year then 29 else 28
  else if month = 4 || month = 6 || month = 9 || month = 11 then 30
  else 31

structure Date where
  year : Int
  month : Nat
  day : Nat
  month_pos : 1 ≤ month
  month_le : month ≤ 12
  day_pos : 1 ≤ day
  day_le : day ≤ daysInMonth year month
  deriving DecidableEq

namespace Date

def make? (year : Int) (month day : Nat) : Option Date :=
  if h : 1 ≤ month ∧ month ≤ 12 ∧ 1 ≤ day ∧ day ≤ daysInMonth year month then
    some ⟨year, month, day, h.1, h.2.1, h.2.2.1, h.2.2.2⟩
  else none

/-- The date `day - 1` days after the first of a month, for a day below 32. -/
def rolledOver? (year : Int) (month day : Nat) : Option Date :=
  if day ≤ daysInMonth year month then make? year month day
  else make? year (month + 1) (day - daysInMonth year month)

/-- Earlier in time. -/
def before (a b : Date) : Bool :=
  a.year < b.year || (a.year = b.year &&
    (a.month < b.month || (a.month = b.month && a.day < b.day)))

/-! ### Spelling in terms -/

def isDayField : List Char → Bool
  | [c] => '1' ≤ c && c ≤ '9'
  | [c, d] =>
    (c = '0' && '1' ≤ d && d ≤ '9') || ((c = '1' || c = '2') && Text.isDecimalDigit d) ||
      (c = '3' && (d = '0' || d = '1'))
  | _ => false

def isMonthField : List Char → Bool
  | [c] => '1' ≤ c && c ≤ '9'
  | [c, d] => (c = '0' && '1' ≤ d && d ≤ '9') || (c = '1' && '0' ≤ d && d ≤ '2')
  | _ => false

def isYearField : List Char → Bool
  | [c, d, e, f] =>
    (c = '1' || c = '2') && Text.isDecimalDigit d && Text.isDecimalDigit e && Text.isDecimalDigit f
  | _ => false

/-- The three fields of a spelled date. -/
def fields? (cs : List Char) : Option (List Char × List Char × List Char) :=
  match Text.splitOn '.' cs with
  | [day, month, year] =>
    if isDayField day && isMonthField month && isYearField year then some (day, month, year)
    else none
  | _ => none

def isSpelling (text : String) : Bool :=
  (fields? text.toList).isSome

/-- The number of a field; a field that holds a digit without a value counts as zero. -/
def fieldValue (cs : List Char) : Nat :=
  (Text.readNat? cs).getD 0

/-- The date that a spelling stands for. -/
def read? (text : String) : Option Date :=
  (fields? text.toList).bind fun (day, month, year) =>
    rolledOver? (fieldValue year) (fieldValue month) (fieldValue day)

/-- Day, month and year, without leading zeros. -/
def text (date : Date) : String :=
  toString date.day ++ "." ++ toString date.month ++ "." ++ toString date.year

/-! ### Spelling in records -/

/-- The years that records can hold. -/
def isRecordedYear (year : Int) : Bool :=
  -262143 ≤ year && year ≤ 262142

/-- Reads at most `width` ASCII digits after blanks, at least one. -/
def takeNumber (width : Nat) (cs : List Char) : Option (Nat × List Char) :=
  let digits := (cs.take width).takeWhile Char.isDigit
  (Text.readNat? digits).map fun n => (n, cs.drop digits.length)

/-- A year has four digits at most, or a sign and any number of digits. -/
def takeYear (cs : List Char) : Option (Int × List Char) :=
  match Text.trimStart cs with
  | '-' :: cs => (takeNumber cs.length cs).map fun (n, rest) => (-(n : Int), rest)
  | '+' :: cs => (takeNumber cs.length cs).map fun (n, rest) => ((n : Int), rest)
  | cs => (takeNumber 4 cs).map fun (n, rest) => ((n : Int), rest)

/-- Reads a hyphen and a number of at most two digits, with blanks around both. -/
def takeField (cs : List Char) : Option (Nat × List Char) :=
  match Text.trimStart cs with
  | '-' :: cs => takeNumber 2 (Text.trimStart cs)
  | _ => none

/-- Year, month and day of a record. -/
def ofRecord? (text : String) : Option Date := do
  let (year, rest) ← takeYear text.toList
  let (month, rest) ← takeField rest
  let (day, rest) ← takeField rest
  guard ((Text.trimStart rest).isEmpty && isRecordedYear year)
  make? year month day

/-- A number with leading zeros up to a width. -/
def padded (width n : Nat) : String :=
  let digits := toString n
  .ofList (List.replicate (width - digits.length) '0') ++ digits

/-- Year, month and day with leading zeros; a year outside four digits has a sign. -/
def record (date : Date) : String :=
  let year :=
    if 0 ≤ date.year && date.year ≤ 9999 then padded 4 date.year.toNat
    else (if date.year < 0 then "-" else "+") ++ padded 4 date.year.natAbs
  year ++ "-" ++ padded 2 date.month ++ "-" ++ padded 2 date.day

end Date
end KinQuery
