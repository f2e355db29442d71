import KinQuery.Text.CaseTable

/-! Lower-casing of whole texts. One letter becomes one letter, with two exceptions: the
dotted capital I becomes an i with a dot above, and a capital sigma becomes a final sigma
when a letter precedes it in its word and none follows. -/
namespace KinQuery.Text

def isCased (c : Char) : Bool :=
  inRanges casedRanges c

def isCaseIgnorable (c : Char) : Bool :=
  inRanges caseIgnorableRanges c

/-- The small letter of one character on its own. -/
def lowerChar (c : Char) : Char :=
  if c.toNat < 0x80 then c.toLower
  else match caseRuns.find? fun run => run.first ≤ c.toNat && c.toNat ≤ run.last &&
      (c.toNat - run.first) % run.stride = 0 with
    | some run => .ofNat (c.toNat + run.offset).toNat
    | none => c

/-- Whether the nearest character that is not skipped has case. -/
def casedNext (cs : List Char) : Bool :=
  match cs.dropWhile isCaseIgnorable with
  | c :: _ => isCased c
  | [] => false

/-- Lower-cases `cs`; `before` holds what precedes it, nearest first. -/
def lowerAfter (before : List Char) : List Char → List Char
  | [] => []
  | c :: cs =>
    let small :=
      if c = 'Σ' then [if casedNext before && !casedNext cs then 'ς' else 'σ']
      else if c = 'İ' then ['i', '\u0307']
      else [lowerChar c]
    small ++ lowerAfter (c :: before) cs

def lowerCase (s : String) : String :=
  .ofList (lowerAfter [] s.toList)

end KinQuery.Text
