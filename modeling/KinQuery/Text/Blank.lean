import KinQuery.Text.Range

/-! Blank characters (the Unicode property White_Space) and trimming.

Two kinds of blanks meet in this library: the blanks here separate words in scripts, keys and
prompts, while the reader of terms only skips four of them (`isSpace`). -/
namespace KinQuery.Text

def blankRanges : List (Nat × Nat) :=
  [(0x9, 0xD), (0x20, 0x20), (0x85, 0x85), (0xA0, 0xA0), (0x1680, 0x1680), (0x2000, 0x200A),
    (0x2028, 0x2029), (0x202F, 0x202F), (0x205F, 0x205F), (0x3000, 0x3000)]

/-- A blank of any kind. -/
def isBlank (c : Char) : Bool :=
  inRanges blankRanges c

/-- The four blanks that separate terms: space, tab, carriage return and line feed. -/
def isSpace (c : Char) : Bool :=
  c = ' ' || c = '\t' || c = '\r' || c = '\n'

theorem isBlank_of_isSpace {c : Char} (h : isSpace c = true) : isBlank c = true := by
  simp only [isSpace, Bool.or_eq_true, decide_eq_true_eq] at h
  rcases h with ((rfl | rfl) | rfl) | rfl <;> decide

def trimStart (cs : List Char) : List Char :=
  cs.dropWhile isBlank

def trimEnd (cs : List Char) : List Char :=
  (cs.reverse.dropWhile isBlank).reverse

/-- The text without the blanks at either end. -/
def trim (cs : List Char) : List Char :=
  trimEnd (trimStart cs)

/-- The same for a string. -/
def trimmed (s : String) : String :=
  .ofList (trim s.toList)

/-- The pieces between the occurrences of a separator: one more piece than separators. -/
def splitOn (separator : Char) : List Char → List (List Char)
  | [] => [[]]
  | c :: cs =>
    if c = separator then [] :: splitOn separator cs
    else match splitOn separator cs with
      | piece :: pieces => (c :: piece) :: pieces
      | [] => [[c]]

end KinQuery.Text
