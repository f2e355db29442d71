import KinQuery.Proofs.Evaluation.Literal
import KinQuery.Proofs.Evaluation.Vocabulary

/-! Primitives keep to a vocabulary.

Of a string it may ask something of each character alone; what it asks of dates has to hold of
the dates that such strings spell. If it admits all that a primitive can take from the world
besides its arguments, the answers to arguments that keep to it do so as well. -/
namespace KinQuery

/-- What primitives see of a session. -/
structure World where
  tree : FamilyTree
  dictionary : Dictionary
  today : Date

def Session.world (s : Session) : World :=
  ⟨s.tree.1, s.dictionary, s.today⟩

def World.Holds (w : World) (p : Profile) : Prop :=
  ∃ v ∈ w.tree.vertices, v.profile = p

/-! ### Results of which something is known -/

/-- Every value that a result may be is of a sort. -/
def Gives {α : Type} (P : α → Prop) (r : Except Failure α) : Prop :=
  ∀ a, r = .ok a → P a

namespace Gives
variable {α β : Type} {P : α → Prop} {Q : β → Prop}

theorem ok {a : α} (h : P a) : Gives P (.ok a) := by
  rintro b ⟨⟩
  exact h

theorem error (failure : Failure) : Gives P (.error failure) := by
  rintro b ⟨⟩

theorem bind {r : Except Failure α} {f : α → Except Failure β} (first : Gives P r)
    (next : ∀ a, P a → Gives Q (f a)) : Gives Q (r >>= f) := by
  cases r with
  | ok a => exact next a (first a rfl)
  | error failure => exact error failure

theorem trivial (r : Except Failure α) : Gives (fun _ => True) r :=
  fun _ _ => True.intro

theorem mapM {f : α → Except Failure β} :
    ∀ {as : List α}, (∀ a ∈ as, Gives Q (f a)) → Gives (fun bs => ∀ b ∈ bs, Q b) (as.mapM f)
  | [], _ => ok (by simp)
  | a :: as, each => by
    obtain ⟨first, rest⟩ := List.forall_mem_cons.1 each
    rw [List.mapM_cons]
    refine first.bind fun b hb => ?_
    refine (mapM rest).bind fun bs hbs => ?_
    exact ok (List.forall_mem_cons.2 ⟨hb, hbs⟩)

end Gives

/-! ### What a vocabulary admits -/

/-- A character of the texts that primitives write themselves. -/
def Text.IsCommon (c : Char) : Prop :=
  isLetter c = true ∨ c.isDigit = true ∨ c = '-' ∨ c = ' '

namespace Text.IsCommon
variable {c : Char}

/-- No quote, no marker, and no digit of another script. -/
theorem spells (common : IsCommon c) :
    c ≠ quote ∧ c ≠ marker ∧ (isDecimalDigit c = true → c.isDigit = true) := by
  have other (d : Char) (h : isLetter d = false ∧ d.isDigit = false ∧ d ≠ '-' ∧ d ≠ ' ') :
      c ≠ d := by
    rintro rfl
    simp [IsCommon, h] at common
  refine ⟨other quote (by decide), other marker (by decide), fun decimal => ?_⟩
  rcases common with letter | digit | rfl | rfl
  · rw [isDecimalDigit_of_isLetter letter] at decimal
    cases decimal
  · exact digit
  · exact absurd decimal (by decide +kernel)
  · exact absurd decimal (by decide +kernel)

end Text.IsCommon

/-- The vocabulary allows strings of fitting characters and all else that the world holds. -/
structure Vocabulary.Admits (g : Vocabulary) (fits : Char → Prop) (w : World) : Prop where
  boolean : ∀ b, g.leaf (.boolean b)
  numeral : ∀ n, g.leaf (.numeral n)
  void : g.leaf .void
  string : ∀ s, g.leaf (.string s) ↔ ∀ c ∈ s.toList, fits c
  common : ∀ c, Text.IsCommon c → fits c
  /-- Quotes around a text are no part of the date that it spells. -/
  spelled : ∀ text d, (∀ c ∈ text.toList, c ≠ Text.quote → fits c) → Date.read? text = some d →
    g.leaf (.date d)
  texts : ∀ p, g.leaf (.person p) → ∀ field ∈ p.texts, ∀ c ∈ field.2.toList, fits c
  birth : ∀ p, g.leaf (.person p) → g.leaf (.date p.birth)
  person : ∀ p, w.Holds p → g.leaf (.person p)
  wedding : ∀ v ∈ w.tree.vertices, ∀ d, v.wedding = some d → g.leaf (.date d)
  names : ∀ chain name, w.dictionary.get? chain = some name → ∀ c ∈ name.toList, fits c
  today : g.leaf (.date w.today)

variable {g : Vocabulary} {fits : Char → Prop} {w : World} {v a b c : Value}
  {arguments : List Value} {p : Primitive}

namespace Value

theorem obeys_date {d : Date} : (Value.date d).Obeys g ↔ g.leaf (.date d) := by
  simp [Obeys]

theorem obeys_person {p : Profile} : (Value.person p).Obeys g ↔ g.leaf (.person p) := by
  simp [Obeys]

theorem obeys_vacant : vacant.Obeys g :=
  obeys_list.2 (by simp)

theorem Obeys.asList (operation : String) (h : v.Obeys g) :
    Gives (fun items => ∀ item ∈ items, item.Obeys g) (v.asList operation) := by
  cases v with
  | list items => exact .ok (obeys_list.1 h)
  | _ => exact .error _

theorem Obeys.asPerson (operation : String) (h : v.Obeys g) :
    Gives (fun p => g.leaf (.person p)) (v.asPerson operation) := by
  cases v with
  | person p => exact .ok (obeys_person.1 h)
  | _ => exact .error _

end Value

namespace Vocabulary.Admits
variable (admits : g.Admits fits w)
include admits

theorem obeys_boolean (b : Bool) : (Value.boolean b).Obeys g := by
  simpa [Value.Obeys] using admits.boolean b

theorem obeys_numeral (n : Numeral) : (Value.numeral n).Obeys g := by
  simpa [Value.Obeys] using admits.numeral n

theorem obeys_void : Value.void.Obeys g := by
  simpa [Value.Obeys] using admits.void

theorem obeys_string {s : String} : (Value.string s).Obeys g ↔ ∀ c ∈ s.toList, fits c := by
  simpa [Value.Obeys] using admits.string s

theorem obeys_text {s : String} (common : ∀ c ∈ s.toList, Text.IsCommon c) :
    (Value.string s).Obeys g :=
  admits.obeys_string.2 fun c hc => admits.common c (common c hc)

theorem asString (operation : String) (h : v.Obeys g) :
    Gives (fun s => ∀ c ∈ s.toList, fits c) (v.asString operation) := by
  cases v with
  | string s => exact .ok (admits.obeys_string.1 h)
  | _ => exact .error _

end Vocabulary.Admits

theorem Numeral.text_common (n : Numeral) : ∀ c ∈ n.text.toList, Text.IsCommon c := by
  intro c hc
  rw [Numeral.toList_text] at hc
  rcases List.mem_append.1 hc with sign | digit
  · split at sign
    · cases sign
    · exact .inr (.inr (.inl (List.mem_singleton.1 sign)))
  · exact .inr (.inl (Text.isDigit_of_mem_toDigits digit))

/-! ### Primitives -/

theorem Primitive.unary_obeys {f : Value → Except Failure Value}
    (good : ∀ v ∈ arguments, v.Obeys g)
    (each : ∀ a, a.Obeys g → Gives (Value.Obeys g) (f a)) :
    Gives (Value.Obeys g) (p.unary arguments f) := by
  unfold Primitive.unary
  split
  · rename_i a
    exact each a (good a (by simp))
  · exact .error _

theorem Primitive.binary_obeys {f : Value → Value → Except Failure Value}
    (good : ∀ v ∈ arguments, v.Obeys g)
    (each : ∀ a b, a.Obeys g → b.Obeys g → Gives (Value.Obeys g) (f a b)) :
    Gives (Value.Obeys g) (p.binary arguments f) := by
  unfold Primitive.binary
  split
  · rename_i a b
    exact each a b (good a (by simp)) (good b (by simp))
  · exact .error _

theorem Primitive.ternary_obeys {f : Value → Value → Value → Except Failure Value}
    (each : ∀ a b c, Gives (Value.Obeys g) (f a b c)) :
    Gives (Value.Obeys g) (p.ternary arguments f) := by
  unfold Primitive.ternary
  split
  · exact each _ _ _
  · exact .error _

theorem Lists.item_obeys (void : Value.void.Obeys g) (good : a.Obeys g) :
    Gives (Value.Obeys g) (Lists.item a b) := by
  refine (good.asList _).bind fun items hi => (Gives.trivial _).bind fun index _ => ?_
  have entry (i : Nat) : (items[i]?.getD .void).Obeys g := by
    cases h : items[i]? with
    | none => exact void
    | some item => exact hi item (List.mem_of_getElem? h)
  have checked (position : Int) : Gives (Value.Obeys g)
      (if position < 0 then .ok .void else .ok (items[position.toNat]?.getD .void)) := by
    split
    · exact .ok void
    · exact .ok (entry _)
  exact checked _

theorem Lists.join_obeys (good : ∀ v ∈ arguments, v.Obeys g) :
    Gives (Value.Obeys g) (Lists.join arguments) := by
  refine (Gives.mapM fun a ha => (good a ha).asList _).bind fun lists hl => ?_
  refine .ok (Value.obeys_list.2 fun item hitem => ?_)
  obtain ⟨items, hitems, hitem⟩ := List.mem_flatten.1 hitem
  exact hl items hitems item hitem

theorem Lists.append_obeys (good : ∀ v ∈ arguments, v.Obeys g) :
    Gives (Value.Obeys g) (Lists.append arguments) := by
  unfold Lists.append
  split
  · exact .error _
  · rename_i a items
    obtain ⟨first, rest⟩ := List.forall_mem_cons.1 good
    refine (first.asList _).bind fun firsts hf => .ok (Value.obeys_list.2 fun item hitem => ?_)
    rcases List.mem_append.1 hitem with hitem | hitem
    · exact hf item hitem
    · exact rest item hitem

theorem Lists.head_obeys (good : a.Obeys g) : Gives (Value.Obeys g) (Lists.head a) := by
  refine (good.asList _).bind fun items hi => .ok ?_
  cases items with
  | nil => exact Value.obeys_vacant
  | cons item items => exact hi item List.mem_cons_self

theorem Lists.tail_obeys (good : a.Obeys g) : Gives (Value.Obeys g) (Lists.tail a) := by
  refine (good.asList _).bind fun items hi => .ok (Value.obeys_list.2 fun item hitem => ?_)
  exact hi item (List.mem_of_mem_tail hitem)

section Admitted
variable (admits : g.Admits fits w)
include admits

theorem Numerals.fold_obeys (operation : String) (step : Numeral → Numeral → Option Numeral)
    (total : Numeral) (arguments : List Value) :
    Gives (Value.Obeys g) (Numerals.fold operation step total arguments) := by
  induction arguments generalizing total with
  | nil => exact .ok (admits.obeys_numeral _)
  | cons a arguments ih =>
    refine (Gives.trivial _).bind fun n _ => ?_
    split
    · exact ih _
    · exact .error _

theorem Numerals.inRange_obeys (operation : String) (n : Option Numeral) :
    Gives (Value.Obeys g) (Numerals.inRange operation n) := by
  cases n with
  | some n => exact .ok (admits.obeys_numeral n)
  | none => exact .error _

theorem Strings.concat_obeys (good : ∀ v ∈ arguments, v.Obeys g) :
    Gives (Value.Obeys g) (Strings.concat arguments) := by
  refine (Gives.mapM fun a ha => admits.asString _ (good a ha)).bind fun strings hs => ?_
  refine .ok (admits.obeys_string.2 ?_)
  induction strings with
  | nil => simp
  | cons s strings ih =>
    obtain ⟨first, rest⟩ := List.forall_mem_cons.1 hs
    have joined := ih rest
    rw [String.join_cons, String.toList_append]
    exact List.forall_mem_append.2 ⟨first, joined⟩

theorem Strings.chars_obeys (good : a.Obeys g) : Gives (Value.Obeys g) (Strings.chars a) := by
  refine (admits.asString _ good).bind fun s hs => .ok (Value.obeys_list.2 fun item hitem => ?_)
  obtain ⟨c, hc, rfl⟩ := List.mem_map.1 hitem
  refine admits.obeys_string.2 fun d hd => ?_
  have same : d = c := by simpa using hd
  exact same ▸ hs c hc

theorem Strings.slice_obeys {s : String} (hs : ∀ c ∈ s.toList, fits c) (first last : Int) :
    Gives (Value.Obeys g) (Strings.slice s first last) := by
  unfold Strings.slice
  split
  · exact .error _
  · refine .ok (admits.obeys_string.2 fun c hc => hs c ?_)
    rw [String.toList_ofList] at hc
    exact List.mem_of_mem_drop (List.mem_of_mem_take hc)

theorem Strings.substring_obeys (good : ∀ v ∈ arguments, v.Obeys g) :
    Gives (Value.Obeys g) (Strings.substring arguments) := by
  unfold Strings.substring
  dsimp only
  split
  · refine (admits.asString _ (good _ (by simp))).bind fun s hs => ?_
    exact (Gives.trivial _).bind fun _ _ => Strings.slice_obeys admits hs _ _
  · refine (admits.asString _ (good _ (by simp))).bind fun s hs => ?_
    refine (Gives.trivial _).bind fun _ _ => ?_
    exact (Gives.trivial _).bind fun _ _ => Strings.slice_obeys admits hs _ _
  · exact .error _

theorem Dates.read_obeys (good : a.Obeys g) : Gives (Value.Obeys g) (Dates.read a) := by
  unfold Dates.read
  split
  · exact .ok good
  · refine (admits.asString _ good).bind fun s hs => ?_
    split
    · exact .error _
    · split
      · rename_i d hd
        exact .ok (Value.obeys_date.2 (admits.spelled s d (fun c hc _ => hs c hc) hd))
      · exact .error _

/-- A primitive that depends on its arguments alone. -/
theorem Primitive.compute_obeys (p : Primitive) (good : ∀ v ∈ arguments, v.Obeys g) :
    Gives (Value.Obeys g) (p.compute arguments) := by
  have boolean := admits.obeys_boolean
  have numeral := admits.obeys_numeral
  cases p
  case equal => exact binary_obeys good fun _ _ _ _ => .ok (boolean _)
  case ofType =>
    exact binary_obeys good fun _ _ _ _ => (Gives.trivial _).bind fun _ _ => .ok (boolean _)
  case and | or => exact (Gives.trivial _).bind fun _ _ => .ok (boolean _)
  case not => exact unary_obeys good fun _ _ => (Gives.trivial _).bind fun _ _ => .ok (boolean _)
  case add | multiply => exact Numerals.fold_obeys admits _ _ _ _
  case subtract | divide | remainder =>
    exact binary_obeys good fun _ _ _ _ => (Gives.trivial _).bind fun _ _ =>
      (Gives.trivial _).bind fun _ _ => Numerals.inRange_obeys admits _ _
  case less | atMost | greater | atLeast | before | after =>
    exact binary_obeys good fun _ _ _ _ => (Gives.trivial _).bind fun _ _ =>
      (Gives.trivial _).bind fun _ _ => .ok (boolean _)
  case concat => exact Strings.concat_obeys admits good
  case chars => exact unary_obeys good fun _ ha => Strings.chars_obeys admits ha
  case substring => exact Strings.substring_obeys admits good
  case string =>
    exact unary_obeys good fun _ _ => (Gives.trivial _).bind fun n _ =>
      .ok (admits.obeys_text n.text_common)
  case during =>
    exact ternary_obeys fun _ _ _ => (Gives.trivial _).bind fun _ _ =>
      (Gives.trivial _).bind fun _ _ => (Gives.trivial _).bind fun _ _ => .ok (boolean _)
  case day | month | year | count =>
    exact unary_obeys good fun _ _ => (Gives.trivial _).bind fun _ _ => .ok (numeral _)
  case date => exact unary_obeys good fun _ ha => Dates.read_obeys admits ha
  case list => exact .ok (Value.obeys_list.2 good)
  case «at» => exact binary_obeys good fun _ _ ha _ => Lists.item_obeys admits.obeys_void ha
  case join => exact Lists.join_obeys good
  case append => exact Lists.append_obeys good
  case head => exact unary_obeys good fun _ ha => Lists.head_obeys ha
  case tail => exact unary_obeys good fun _ ha => Lists.tail_obeys ha
  all_goals exact .error _

end Admitted
end KinQuery
