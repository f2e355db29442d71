/-! Media types in the headers of requests: a type, a subtype with an optional suffix, and
parameters. -/
namespace KinQuery

structure MediaType where
  kind : String
  subtype : String
  /-- What follows the last plus sign of the subtype. -/
  suffix : Option String := none
  deriving DecidableEq

namespace MediaType

/-- A character of a word in a media type. -/
def isWordChar (c : Char) : Bool :=
  c.isAlphanum || "!#$%&'*+-.^_`|~".toList.contains c

/-- A character of a header: visible, a space or a tab. -/
def isHeaderChar (c : Char) : Bool :=
  c = '\t' || (' ' ≤ c && c ≤ '~')

/-- A character that may stand between quotation marks. -/
def isQuotable (c : Char) : Bool :=
  ' ' ≤ c && c ≤ '~'

/-- The characters up to one that ends the word, which may not be the first one; each has to be
of a word. -/
def takeWord (ends : Char → Bool) (cs : List Char) : Option (List Char × List Char) :=
  match cs with
  | [] => some ([], [])
  | c :: rest =>
    let word := c :: rest.takeWhile fun c => !ends c
    if word.all isWordChar then some (word, cs.drop word.length) else none

/-- What follows a parameter: nothing, or another parameter. -/
def nextParameter : List Char → Option (List Char)
  | [] => some []
  | ';' :: rest => some rest
  | _ => none

/-- Reads on in a quoted value, and up to the end of its parameter. -/
def skipQuoted (cs : List Char) : Option (List Char) :=
  let text := cs.takeWhile (· ≠ '"')
  match cs.drop text.length with
  | _ :: rest => if text.all isQuotable then nextParameter (rest.dropWhile (· = ' ')) else none
  | [] => none

/-- Reads one parameter after its semicolon. The first character between quotation marks may
itself be a quotation mark. -/
def skipParameter (cs : List Char) : Option (List Char) := do
  let (name, rest) ← takeWord (· = '=') (cs.dropWhile (· = ' '))
  match rest with
  | '=' :: '"' :: c :: rest => if isQuotable c then skipQuoted rest else none
  | '=' :: rest =>
    let (_, rest) ← takeWord (· = ';') rest
    nextParameter rest
  | _ => if name.isEmpty then some [] else none

/-- Whether a text is a sequence of parameters; each takes at least one character. -/
def areParameters : (bound : Nat) → List Char → Bool
  | _, [] => true
  | 0, _ => false
  | bound + 1, cs => ((skipParameter cs).map (areParameters bound)).getD false

/-- The parts of a subtype. A plus sign at its beginning makes no suffix. -/
def ofSubtype (kind word : List Char) : MediaType :=
  let suffix := (word.drop 1).reverse.takeWhile (· ≠ '+')
  if suffix.length + 1 < word.length then
    ⟨.ofList kind, .ofList (word.take (word.length - suffix.length - 1)),
      some (.ofList suffix.reverse)⟩
  else ⟨.ofList kind, .ofList word, none⟩

/-- Reads a media type, in small letters. -/
def read? (header : String) : Option MediaType := do
  guard (header.toList.all isHeaderChar)
  let (kind, rest) ← takeWord (· = '/') (header.toList.map Char.toLower)
  let '/' :: rest := rest | none
  let (subtype, rest) ← takeWord (· = ';') rest
  guard (!subtype.isEmpty)
  match rest with
  | ';' :: cs => guard (areParameters cs.length cs)
  | _ => pure ()
  some (ofSubtype kind subtype)

/-- Whether a header announces a JSON document, plain or as the syntax of another format. -/
def isJson (header : String) : Bool :=
  match read? header with
  | some ⟨"application", subtype, suffix⟩ => subtype = "json" || suffix = some "json"
  | _ => false

end MediaType
end KinQuery
