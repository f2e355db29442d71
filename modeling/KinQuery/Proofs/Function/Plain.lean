import KinQuery.Proofs.Function.AdmittedAnswer
import KinQuery.Proofs.Term.Reading

/-! Plain values: those whose spelling as a term says all about them.

Their strings hold no quotes and no digits of other scripts, their dates lie in the years that
terms can spell, their persons are in the family tree, and their functions are primitives that
only look. Primitives answer plain arguments with plain values. -/
namespace KinQuery

/-- The decimal digits among the characters are those from 0 to 9. -/
def Text.HasAsciiDigits (cs : List Char) : Prop :=
  ∀ c ∈ cs, isDecimalDigit c = true → c.isDigit = true

theorem Text.hasAsciiDigits_iff_all {cs : List Char} :
    HasAsciiDigits cs ↔ (cs.all fun c => !isDecimalDigit c || c.isDigit) = true := by
  simp [HasAsciiDigits, or_iff_not_imp_left]

instance : DecidablePred Text.HasAsciiDigits :=
  fun _ => decidable_of_iff' _ Text.hasAsciiDigits_iff_all

/-- No quote, and no digit of another script. -/
def Text.IsPlain (cs : List Char) : Prop :=
  quote ∉ cs ∧ HasAsciiDigits cs

/-- Everything that a world can add to values is plain. -/
structure World.IsPlain (w : World) : Prop where
  unique : ∀ p q, w.Holds p → w.Holds q → p.id = q.id → p = q
  texts : ∀ p, w.Holds p → ∀ field ∈ p.texts, Text.IsPlain field.2.toList
  birth : ∀ p, w.Holds p → p.birth.IsSpellable
  wedding : ∀ v ∈ w.tree.vertices, ∀ d, v.wedding = some d → d.IsSpellable
  names : ∀ chain name, w.dictionary.get? chain = some name → Text.IsPlain name.toList
  today : w.today.IsSpellable

/-- Of values that are neither lists nor lambdas. -/
def Value.IsPlainLeaf (allowed : Primitive → Prop) (w : World) : Value → Prop
  | .string s => Text.IsPlain s.toList
  | .date d => d.IsSpellable
  | .person p => w.Holds p
  | .function (.primitive p) => allowed p
  | .function _ => False
  | _ => True

/-- Words that neither make lambdas nor change the dictionary nor mark persons in keys, and
hold no digit of another script. -/
structure IsPlainWord (text : String) : Prop where
  digits : Text.HasAsciiDigits text.toList
  not_lambda : text ≠ SpecialForm.lambda.word
  not_put : text ≠ Primitive.putKinshipTerm.name
  not_mark : text.toList.head? ≠ some '#'

theorem isPlainWord_iff {text : String} : IsPlainWord text ↔
    Text.HasAsciiDigits text.toList ∧ text ≠ SpecialForm.lambda.word ∧
      text ≠ Primitive.putKinshipTerm.name ∧ text.toList.head? ≠ some '#' :=
  ⟨fun h => ⟨h.digits, h.not_lambda, h.not_put, h.not_mark⟩,
    fun ⟨digits, lambda, put, mark⟩ => ⟨digits, lambda, put, mark⟩⟩

instance : DecidablePred IsPlainWord :=
  fun _ => decidable_of_iff' _ isPlainWord_iff

structure IsPlainAtom (text : String) : Prop extends IsPlainWord text where
  isAtomText : IsAtomText text.toList

/-- The words and values of evaluation without lambdas, with the atoms and the primitives that
are allowed. -/
def Vocabulary.spelled (atom : String → Prop) (allowed : Primitive → Prop) (w : World) :
    Vocabulary where
  atom := atom
  leaf := Value.IsPlainLeaf allowed w
  lambda := False

/-- Words that neither make lambdas nor mark persons in keys, and hold no digit of another
script. -/
structure IsTameWord (text : String) : Prop where
  digits : Text.HasAsciiDigits text.toList
  not_lambda : text ≠ SpecialForm.lambda.word
  not_mark : text.toList.head? ≠ some '#'

theorem isTameWord_iff {text : String} : IsTameWord text ↔
    Text.HasAsciiDigits text.toList ∧ text ≠ SpecialForm.lambda.word ∧
      text.toList.head? ≠ some '#' :=
  ⟨fun h => ⟨h.digits, h.not_lambda, h.not_mark⟩,
    fun ⟨digits, lambda, mark⟩ => ⟨digits, lambda, mark⟩⟩

instance : DecidablePred IsTameWord :=
  fun _ => decidable_of_iff' _ isTameWord_iff

structure IsTameAtom (text : String) : Prop extends IsTameWord text where
  isAtomText : IsAtomText text.toList

theorem IsPlainAtom.tame {text : String} (h : IsPlainAtom text) : IsTameAtom text :=
  ⟨⟨h.digits, h.not_lambda, h.not_mark⟩, h.isAtomText⟩

/-- Of evaluation with all primitives. -/
abbrev Vocabulary.tame (w : World) : Vocabulary :=
  .spelled IsTameAtom (fun _ => True) w

/-- Of evaluation that does not change the dictionary. -/
abbrev Vocabulary.plain (w : World) : Vocabulary :=
  .spelled IsPlainAtom (· ≠ .putKinshipTerm) w

/-! ### Taking plain values apart -/

namespace Text
variable {cs ds : List Char} {c : Char}

theorem isPlain_of_subset (hd : IsPlain ds) (h : ∀ c ∈ cs, c ∈ ds) : IsPlain cs :=
  ⟨fun q => hd.1 (h _ q), fun c hc => hd.2 c (h c hc)⟩

/-- What plain texts are made of. -/
def IsPlainChar (c : Char) : Prop :=
  c ≠ quote ∧ (isDecimalDigit c = true → c.isDigit = true)

theorem isPlain_iff : IsPlain cs ↔ ∀ c ∈ cs, IsPlainChar c := by
  refine ⟨fun plain c hc => ⟨fun same => plain.1 (same ▸ hc), plain.2 c hc⟩, fun each => ?_⟩
  exact ⟨fun hc => (each _ hc).1 rfl, fun c hc => (each c hc).2⟩

/-- Outside of quotes the text is plain. -/
theorem hasAsciiDigits_iff : HasAsciiDigits cs ↔ ∀ c ∈ cs, c ≠ quote → IsPlainChar c := by
  refine ⟨fun digits c hc other => ⟨other, digits c hc⟩, fun each c hc decimal => ?_⟩
  by_cases quoted : c = quote
  · subst quoted
    exact absurd decimal (by decide +kernel)
  · exact (each c hc quoted).2 decimal

end Text

namespace Value
variable {atom : String → Prop} {allowed : Primitive → Prop} {w : World} {v : Value}

/-- The spelling of the value says all about it, and its functions are allowed. -/
abbrev IsSpelled (atom : String → Prop) (allowed : Primitive → Prop) (w : World)
    (v : Value) : Prop :=
  v.Obeys (.spelled atom allowed w)

/-- The value is plain. -/
abbrev IsPlainIn (w : World) (v : Value) : Prop :=
  v.Obeys (.plain w)

/-- The value is plain, but for `put-kinship-term` among its functions. -/
abbrev IsTameIn (w : World) (v : Value) : Prop :=
  v.Obeys (.tame w)

@[simp] theorem isSpelled_boolean {b : Bool} : (Value.boolean b).IsSpelled atom allowed w := by
  simp [IsSpelled, Obeys, Vocabulary.spelled, IsPlainLeaf]

@[simp] theorem isSpelled_numeral {n : Numeral} : (Value.numeral n).IsSpelled atom allowed w := by
  simp [IsSpelled, Obeys, Vocabulary.spelled, IsPlainLeaf]

@[simp] theorem isSpelled_void : Value.void.IsSpelled atom allowed w := by
  simp [IsSpelled, Obeys, Vocabulary.spelled, IsPlainLeaf]

theorem isSpelled_string {s : String} :
    (Value.string s).IsSpelled atom allowed w ↔ Text.IsPlain s.toList := by
  simp [IsSpelled, Obeys, Vocabulary.spelled, IsPlainLeaf]

theorem isSpelled_date {d : Date} : (Value.date d).IsSpelled atom allowed w ↔ d.IsSpellable := by
  simp [IsSpelled, Obeys, Vocabulary.spelled, IsPlainLeaf]

theorem isSpelled_person {p : Profile} : (Value.person p).IsSpelled atom allowed w ↔ w.Holds p := by
  simp [IsSpelled, Obeys, Vocabulary.spelled, IsPlainLeaf]

theorem isSpelled_function {f : Function Value} :
    (Value.function f).IsSpelled atom allowed w ↔ ∃ p, f = .primitive p ∧ allowed p := by
  cases f <;> simp [IsSpelled, Obeys, Vocabulary.spelled, IsPlainLeaf]

theorem isSpelled_vacant : vacant.IsSpelled atom allowed w := by
  simp [vacant]

end Value

/-! ### Plain answers -/

section Answers
variable {atom : String → Prop} {allowed : Primitive → Prop} {w : World}
  {arguments : List Value}

theorem World.IsPlain.admits (hw : w.IsPlain) :
    (Vocabulary.spelled atom allowed w).Admits Text.IsPlainChar w where
  boolean _ := trivial
  numeral _ := trivial
  void := trivial
  string _ := Text.isPlain_iff
  common _ common := ⟨common.spells.1, common.spells.2.2⟩
  spelled _ _ fitting read := Date.isSpellable_of_read? (Text.hasAsciiDigits_iff.2 fitting) read
  texts p hp field member := Text.isPlain_iff.1 (hw.texts p hp field member)
  birth := hw.birth
  person _ hp := hp
  wedding := hw.wedding
  names chain name found := Text.isPlain_iff.1 (hw.names chain name found)
  today := hw.today

/-- Primitives that only read answer plain arguments with plain values. -/
theorem Primitive.answer_plain (hw : w.IsPlain) (p : Primitive)
    (good : ∀ v ∈ arguments, v.IsSpelled atom allowed w) :
    Gives (Value.IsSpelled atom allowed w) (p.answer w.tree w.dictionary w.today arguments) :=
  p.answer_obeys hw.admits good

theorem literalAnswer_plain (hw : w.IsPlain) {kind : Kind} {text : String}
    (digits : Text.HasAsciiDigits text.toList) :
    Gives (Value.IsSpelled atom allowed w) (literalAnswer kind text w.tree w.today) :=
  literalAnswer_obeys hw.admits (Text.hasAsciiDigits_iff.1 digits)

end Answers
end KinQuery
