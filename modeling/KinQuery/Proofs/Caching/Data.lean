import KinQuery.Proofs.Caching.Apart
import KinQuery.Proofs.Evaluation.Primitives
import KinQuery.Proofs.Function.Plain

/-! Answers that hold no functions.

Most primitives make values of their own, which hold no functions. The others, `filter` and `map`
apart, pick values out of their arguments, and put none there that hold functions. -/
namespace KinQuery

variable {p : Primitive} {arguments : List Value} {tree : FamilyTree} {dictionary : Dictionary}
  {today : Date} {v : Value}

theorem Value.isTransparent_isPlain : IsTransparent fun v => v.isPlain = true where
  leaf _ plain _ := plain
  list items := by
    rw [isPlain]
    exact arePlain_iff

/-- A result without functions. -/
abbrev GivesData (r : Except Failure Value) : Prop :=
  Gives (fun v => v.isPlain = true) r

theorem Gives.step {α β : Type} {Q : β → Prop} {r : Except Failure α} {f : α → Except Failure β}
    (next : ∀ a, Gives Q (f a)) : Gives Q (r >>= f) :=
  (Gives.trivial r).bind fun a _ => next a

namespace Primitive

theorem unary_data {f : Value → Except Failure Value} (each : ∀ a, GivesData (f a)) :
    GivesData (p.unary arguments f) := by
  unfold unary
  split
  · exact each _
  · exact .error _

theorem binary_data {f : Value → Value → Except Failure Value} (each : ∀ a b, GivesData (f a b)) :
    GivesData (p.binary arguments f) := by
  unfold binary
  split
  · exact each _ _
  · exact .error _

theorem ternary_data {f : Value → Value → Value → Except Failure Value}
    (each : ∀ a b c, GivesData (f a b c)) : GivesData (p.ternary arguments f) := by
  unfold ternary
  split
  · exact each _ _ _
  · exact .error _

end Primitive

theorem Numerals.fold_data (operation : String) (step : Numeral → Numeral → Option Numeral)
    (total : Numeral) (arguments : List Value) :
    GivesData (Numerals.fold operation step total arguments) := by
  induction arguments generalizing total with
  | nil => exact .ok rfl
  | cons a arguments ih =>
    refine .step fun n => ?_
    split
    · exact ih _
    · exact .error _

theorem Numerals.inRange_data (operation : String) (n : Option Numeral) :
    GivesData (Numerals.inRange operation n) := by
  cases n with
  | some n => exact .ok rfl
  | none => exact .error _

theorem Strings.chars_data (a : Value) : GivesData (Strings.chars a) := by
  refine .step fun s => .ok ((Value.isTransparent_isPlain.list _).2 fun item member => ?_)
  obtain ⟨c, -, rfl⟩ := List.mem_map.1 member
  rfl

theorem Strings.slice_data (s : String) (first last : Int) :
    GivesData (Strings.slice s first last) := by
  unfold Strings.slice
  split
  · exact .error _
  · exact .ok rfl

theorem Strings.substring_data : GivesData (Strings.substring arguments) := by
  unfold Strings.substring
  dsimp only
  split
  · exact .step fun _ => .step fun _ => slice_data _ _ _
  · exact .step fun _ => .step fun _ => .step fun _ => slice_data _ _ _
  · exact .error _

theorem Dates.read_data (a : Value) : GivesData (Dates.read a) := by
  unfold Dates.read
  split
  · exact .ok rfl
  · refine .step fun s => ?_
    split
    · exact .error _
    · split
      · exact .ok rfl
      · exact .error _

namespace People

theorem personsAt_data (indexes : List Nat) :
    (Value.list (personsAt tree indexes)).isPlain = true :=
  Value.isTransparent_isPlain.of_lift (personsAt_lift tree indexes)

theorem strings_data (chain : List String) : (strings chain).isPlain = true :=
  Value.isTransparent_isPlain.of_lift (strings_lift chain)

theorem attributeOf_data (p : Profile) (name : String) :
    (attributeOf tree today p name).isPlain = true :=
  Value.isTransparent_isPlain.of_lift (attributeOf_lift tree today p name)

theorem find_data : GivesData (find tree arguments) := by
  have found (i : Option Nat) :
      GivesData (.ok (((i.bind tree.person?).map .person).getD .void)) := by
    refine .ok ?_
    cases i.bind tree.person? <;> rfl
  unfold find
  dsimp only
  split
  · exact .step fun _ => .step fun i => found i
  · exact .step fun _ => .step fun _ => .step fun i => found i
  · exact .step fun i => found i

theorem related_data (operation : String) (links : Vertex → List Nat) (a : Value) :
    GivesData (related tree operation links a) := by
  have each (person : Value) : Gives (fun items => (Value.list items).isPlain = true)
      (do let i ← vertexOf tree operation person
          .ok (personsAt tree (((tree.vertex? i).map links).getD []))) :=
    .step fun i => .ok (personsAt_data _)
  unfold related
  refine (Gives.mapM fun person _ => each person).bind fun relatives hr => ?_
  refine .ok ((Value.isTransparent_isPlain.list _).2 fun item member => ?_)
  obtain ⟨items, inside, member⟩ := List.mem_flatten.1 member
  exact (Value.isTransparent_isPlain.list items).1 (hr items inside) item member

end People

/-- Most primitives answer with values of their own. -/
theorem Primitive.answer_data (yields : p.yieldsPlain = true) :
    GivesData (p.answer tree dictionary today arguments) := by
  cases p
  case list | «at» | join | append | head | tail | filter | map | putKinshipTerm => cases yields
  case equal => exact binary_data fun _ _ => .ok rfl
  case ofType => exact binary_data fun _ _ => .step fun _ => .ok rfl
  case and | or | concat => exact .step fun _ => .ok rfl
  case not | string | day | month | year | count => exact unary_data fun _ => .step fun _ => .ok rfl
  case add | multiply => exact Numerals.fold_data _ _ _ _
  case subtract | divide | remainder =>
    exact binary_data fun _ _ => .step fun _ => .step fun _ => Numerals.inRange_data _ _
  case less | atMost | greater | atLeast | before | after =>
    exact binary_data fun _ _ => .step fun _ => .step fun _ => .ok rfl
  case chars => exact unary_data Strings.chars_data
  case substring => exact Strings.substring_data
  case during =>
    exact ternary_data fun _ _ _ => .step fun _ => .step fun _ => .step fun _ => .ok rfl
  case date => exact unary_data Dates.read_data
  case person => exact People.find_data
  case father | mother | spouse | children => exact unary_data (People.related_data _ _)
  case attr =>
    exact binary_data fun _ _ => .step fun _ => .step fun _ => .ok (People.attributeOf_data _ _)
  case kinship =>
    exact binary_data fun _ _ => .step fun _ => .step fun _ => .ok (People.strings_data _)
  case generationDistance => exact binary_data fun _ _ => .step fun _ => .step fun _ => .ok rfl
  case shorten =>
    exact unary_data fun _ => .step fun _ => .step fun _ => .ok (People.strings_data _)
  case relatives =>
    exact binary_data fun _ _ => .step fun _ => .step fun _ => .ok (People.personsAt_data _)

/-- The values that primitives pick out of their arguments hold functions only if these do. -/
theorem Primitive.answer_data_of_data (plain : ∀ a ∈ arguments, a.isPlain = true) :
    GivesData (p.answer tree dictionary today arguments) :=
  fun _ => Value.isTransparent_isPlain.answer plain

end KinQuery
