import KinQuery.Proofs.Function.Plain

/-! What strings are made of, and which dates there are.

A string literal cannot spell a quote, and no query may hold a marker; date literals spell the
years from 1000 to 2999. A digit of another script does no harm in a string, but dates that are
read from such strings can lie in other years. Each of the three is a stock of characters and
dates: primitives that are given nothing else make nothing else. -/
namespace KinQuery

/-- Characters and dates that no primitive leaves. -/
structure Stock where
  fits : Char → Prop
  dates : Date → Prop
  common : ∀ c, Text.IsCommon c → fits c
  /-- Quotes around a text are no part of the date that it spells. -/
  spelled : ∀ text d, (∀ c ∈ text.toList, c ≠ Text.quote → fits c) → Date.read? text = some d →
    dates d

namespace Stock

def unquoted : Stock where
  fits c := c ≠ Text.quote
  dates _ := True
  common _ common := common.spells.1
  spelled _ _ _ _ := trivial

def unmarked : Stock where
  fits c := c ≠ Text.marker
  dates _ := True
  common _ common := common.spells.2.1
  spelled _ _ _ _ := trivial

/-- The dates that terms can spell, and characters that spell no others. -/
def spellable : Stock where
  fits c := Text.isDecimalDigit c = true → c.isDigit = true
  dates := Date.IsSpellable
  common _ common := common.spells.2.2
  spelled _ _ fitting read :=
    have digits := Text.hasAsciiDigits_iff.2 fun c hc other => ⟨other, fitting c hc other⟩
    Date.isSpellable_of_read? digits read

/-- Terms and values that hold nothing else; the quotes around literals may stand in atoms, and
of registered functions nothing is known. -/
def vocabulary (k : Stock) : Vocabulary where
  atom text := ∀ c ∈ text.toList, c ≠ Text.quote → k.fits c
  leaf
    | .string s => ∀ c ∈ s.toList, k.fits c
    | .date d => k.dates d
    | .person p => k.dates p.birth ∧ ∀ field ∈ p.texts, ∀ c ∈ field.2.toList, k.fits c
    | .function (.host _) => False
    | _ => True
  lambda := True

end Stock

/-- Whatever primitives can take from the world is in the stock. -/
structure World.IsFrom (k : Stock) (w : World) : Prop where
  birth : ∀ p, w.Holds p → k.dates p.birth
  texts : ∀ p, w.Holds p → ∀ field ∈ p.texts, ∀ c ∈ field.2.toList, k.fits c
  wedding : ∀ v ∈ w.tree.vertices, ∀ d, v.wedding = some d → k.dates d
  names : ∀ chain name, w.dictionary.get? chain = some name → ∀ c ∈ name.toList, k.fits c
  today : k.dates w.today

/-- The value is made of the stock, and so is all that is inside of it. -/
abbrev Value.IsFrom (k : Stock) (v : Value) : Prop :=
  v.Obeys k.vocabulary

variable {k : Stock}

namespace Value

theorem isFrom_string {s : String} : (Value.string s).IsFrom k ↔ ∀ c ∈ s.toList, k.fits c := by
  simp [IsFrom, Obeys, Stock.vocabulary]

theorem isFrom_date {d : Date} : (Value.date d).IsFrom k ↔ k.dates d := by
  simp [IsFrom, Obeys, Stock.vocabulary]

theorem isFrom_void : Value.void.IsFrom k := by
  simp [IsFrom, Obeys, Stock.vocabulary]

theorem isFrom_primitive (p : Primitive) : (Value.function (.primitive p)).IsFrom k := by
  simp [IsFrom, Obeys, Stock.vocabulary]

theorem not_isFrom_host {h : HostFunction} : ¬(Value.function (.host h)).IsFrom k := by
  simp [IsFrom, Obeys, Stock.vocabulary]

end Value

theorem World.IsFrom.admits {w : World} (hw : w.IsFrom k) : k.vocabulary.Admits k.fits w where
  boolean _ := trivial
  numeral _ := trivial
  void := trivial
  string _ := Iff.rfl
  common := k.common
  spelled := k.spelled
  texts _ hp := hp.2
  birth _ hp := hp.1
  person p hp := ⟨hw.birth p hp, hw.texts p hp⟩
  wedding := hw.wedding
  names := hw.names
  today := hw.today

end KinQuery
