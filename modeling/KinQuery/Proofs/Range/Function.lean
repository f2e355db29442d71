import KinQuery.Function.Dates
import KinQuery.Function.Lists
import KinQuery.Function.People
import KinQuery.Function.Strings
import KinQuery.Proofs.Range.Literal
import KinQuery.Proofs.Range.Search
import KinQuery.Proofs.Range.Shortening

/-! The functions that work with positions, lengths and machine integers, step by step.

No list or text is longer than a signed integer of 64 bits counts, and no year lies beyond those
that a calendar has. This is all that they ask of their arguments. -/
namespace KinQuery

/-- What holds of every value, since it has a place in memory or on a calendar. -/
def Value.Fits : Value → Prop
  | .string s => s.length < 2 ^ 63
  | .list items => items.length < 2 ^ 63
  | .person p => Date.isRecordedYear p.birth.year = true
  | _ => True

namespace Range

/-- The places that pass a test, which may be out of range. -/
def select (test : Nat → Option Bool) : List Nat → Option (List Nat)
  | [] => some []
  | i :: is => do
    let passes ← test i
    let rest ← select test is
    some (if passes then i :: rest else rest)

/-- Whether the kinship of a person to another comes down to one term of a relation. -/
def isRelated (tree : FamilyTree) (dictionary : Dictionary) (ego : Nat) (relation : String)
    (i : Nat) : Option Bool :=
  if i = ego then some false
  else do
    let chain ← kinship tree i ego
    match ← shorten dictionary (chain.length + 1) (chain.map Kin.word) with
    | [term] => some (People.belongs term relation)
    | _ => some false

variable {exact : Prop} {test : Nat → Option Bool} {verdict : Nat → Bool} {is : List Nat}

theorem select_spec
    (each : ∀ i ∈ is, ∃ passes, test i = some passes ∧ (exact → passes = verdict i)) :
    ∃ kept, select test is = some kept ∧ (exact → kept = is.filter verdict) := by
  induction is with
  | nil => exact ⟨[], rfl, fun _ => rfl⟩
  | cons i is ih =>
    obtain ⟨first, rest⟩ := List.forall_mem_cons.1 each
    obtain ⟨passes, run, same⟩ := first
    obtain ⟨kept, runs, same'⟩ := ih rest
    refine ⟨if passes then i :: kept else kept, ?_, fun h => ?_⟩
    · simp only [select, run, runs, Option.bind_eq_bind, Option.bind_some]
    · rw [same h, same' h, List.filter_cons]

variable {tree : FamilyTree}

theorem isRelated_spec (small : exact → tree.size ≤ 2 ^ 32)
    (links : ∀ i v, tree.vertex? i = some v → ∀ j ∈ v.neighbours, j < tree.size)
    (size : tree.size < 2 ^ 63) {dictionary : Dictionary} {ego i : Nat} {relation : String}
    (within : i < tree.size) :
    ∃ related, isRelated tree dictionary ego relation i = some related ∧
      (exact → related = (i ≠ ego && match dictionary.shorten (People.chain tree i ego) with
        | [term] => People.belongs term relation
        | _ => false)) := by
  unfold isRelated
  split
  · rename_i self
    exact ⟨false, rfl, fun _ => by simp [self]⟩
  · rename_i other
    obtain ⟨chain, run, length, same⟩ := kinship_spec (b := ego) links within
    have words : (chain.map Kin.word).length = chain.length := List.length_map ..
    have shortened : shorten dictionary (chain.length + 1) (chain.map Kin.word) =
        some (dictionary.shorten (chain.map Kin.word)) :=
      shorten_eq dictionary (by omega) (by omega)
    rw [run, Option.bind_eq_bind, Option.bind_some, shortened, Option.bind_eq_bind,
      Option.bind_some]
    refine ⟨match dictionary.shorten (chain.map Kin.word) with
      | [term] => People.belongs term relation
      | _ => false, ?_, fun h => ?_⟩
    · split <;> rfl
    · rw [decide_eq_true other, Bool.true_and, same (small h)]
      rfl

end Range

namespace Checked

open Range

/-! ### Lists -/

def count (a : Value) : Checked Value := do
  let items ← ofExcept (a.asList Primitive.count.name)
  return .numeral (.nearest (toSigned items.length))

def item (a b : Value) : Checked Value := do
  let items ← ofExcept (a.asList Primitive.at.name)
  let index ← ofExcept (b.asNumeral Primitive.at.name)
  let length := toSigned items.length
  let position ← step (if index.val < 0 then signed 64 (length + index.val) else some index.val)
  if 0 ≤ position ∧ position < length then step items[toPosition position]? else return .void

def append (arguments : List Value) : Checked Value := do
  let a ← step arguments[0]?
  let first ← ofExcept (a.asList Primitive.append.name)
  let items ← step (itemsFrom arguments 1)
  return .list (first ++ items)

def tail (a : Value) : Checked Value := do
  let items ← ofExcept (a.asList Primitive.tail.name)
  if items.length < 2 then return .vacant
  else do
    let rest ← step (itemsFrom items 1)
    return .list rest

/-! ### Strings and dates -/

def slice (s : String) (first last : Int) : Checked Value :=
  let length := toSigned s.length
  if first < 0 || length < last || last < first then
    ofRun (.fail (.substringBounds first last length))
  else do
    let taken ← step (signed 64 (last - first))
    return .string (.ofList ((s.toList.drop (toPosition first)).take (toPosition taken)))

def substring (arguments : List Value) : Checked Value := do
  let a ← step arguments[0]?
  let s ← ofExcept (a.asString Primitive.substring.name)
  let b ← step arguments[1]?
  let first ← ofExcept (b.asNumeral Primitive.substring.name)
  match arguments[2]? with
  | none => slice s first.val (toSigned s.length)
  | some c => do
    let last ← ofExcept (c.asNumeral Primitive.substring.name)
    slice s first.val last.val

def date : Value → Checked Value
  | .date d => return .date d
  | v => do
    let text ← ofExcept (v.asString Primitive.date.name)
    if !Kind.date.accepts text then ofRun (.fail (.notDateSpelling text))
    else do
      match ← step (readDate text) with
      | some d => return .date d
      | none => ofRun (.fail (.notDate text))

/-! ### Persons -/

def attributeNamed (tree : FamilyTree) (today : Date) (a b : Value) : Checked Value := do
  let p ← ofExcept (a.asPerson Primitive.attr.name)
  let name ← ofExcept (b.asString Primitive.attr.name)
  let name := Text.lowerCase (Text.trimmed name)
  if name = "age" then do
    let age ← step (signed 32 (today.year - p.birth.year))
    return .numeral (.nearest age)
  else return People.attributeOf tree today p name

def kinship (tree : FamilyTree) (a b : Value) : Checked Value := do
  let first ← ofExcept (People.vertexOf tree Primitive.kinship.name a)
  let second ← ofExcept (People.vertexOf tree Primitive.kinship.name b)
  let chain ← step (Range.kinship tree first second)
  return People.strings (chain.map Kin.word)

def generationDistance (tree : FamilyTree) (a b : Value) : Checked Value := do
  let first ← ofExcept (People.vertexOf tree Primitive.generationDistance.name a)
  let second ← ofExcept (People.vertexOf tree Primitive.generationDistance.name b)
  let chain ← step (Range.kinship tree first second)
  let distance ← step (rises chain)
  return .numeral (.nearest distance)

def shorten (dictionary : Dictionary) (a : Value) : Checked Value := do
  let items ← ofExcept (a.asList Primitive.shorten.name)
  let terms ← ofExcept (items.mapM (·.asString Primitive.shorten.name))
  let shortened ← step (Range.shorten dictionary (terms.length + 1) terms)
  return People.strings shortened

def relatives (tree : FamilyTree) (dictionary : Dictionary) (a b : Value) : Checked Value := do
  let ego ← ofExcept (People.vertexOf tree Primitive.relatives.name a)
  let relation ← ofExcept (b.asString Primitive.relatives.name)
  let relation := Text.lowerCase (Text.trimmed relation)
  let found ← step (select (isRelated tree dictionary ego relation) (List.range tree.size))
  return .list (People.personsAt tree found)

/-! ### They stay in range -/

variable {exact : Prop} {s : Session} {a b : Value}

section Kinds
variable {v : Value} {operation : String}

theorem of_asList {items : List Value} (h : v.asList operation = .ok items) : v = .list items := by
  cases v <;> cases h
  rfl

theorem of_asString {text : String} (h : v.asString operation = .ok text) : v = .string text := by
  cases v <;> cases h
  rfl

theorem of_asPerson {p : Profile} (h : v.asPerson operation = .ok p) : v = .person p := by
  cases v <;> cases h
  rfl

theorem length_of_mapM {α β : Type} {f : α → Except Failure β} {as : List α} :
    ∀ {bs : List β}, as.mapM f = .ok bs → bs.length = as.length := by
  induction as with
  | nil => rintro bs ⟨⟩; rfl
  | cons a as ih =>
    intro bs h
    rw [List.mapM_cons] at h
    cases first : f a with
    | error failure => rw [first] at h; cases h
    | ok b =>
      cases rest : as.mapM f with
      | error failure => rw [first, rest] at h; cases h
      | ok bs =>
        rw [first, rest] at h
        cases h
        rw [List.length_cons, List.length_cons, ih rest]

theorem vertexOf_lt {tree : FamilyTree} {i : Nat}
    (h : People.vertexOf tree operation v = .ok i) : i < tree.size := by
  unfold People.vertexOf at h
  cases hp : v.asPerson operation with
  | error failure => rw [hp] at h; cases h
  | ok p =>
    cases found : tree.indexOf? p.id with
    | none => simp only [hp, found, bind, Except.bind, reduceCtorEq] at h
    | some j =>
      simp only [hp, found, bind, Except.bind] at h
      cases h
      exact lt_of_indexOf? found

end Kinds

theorem count_follows (fits : a.Fits) :
    Follows exact (count a) (.ofExcept (Lists.count a)) s := by
  refine .ofExcept_bind fun items h => .pure fun _ => ?_
  obtain rfl := of_asList h
  rw [toSigned_eq fits]

theorem item_follows (fits : a.Fits) :
    Follows exact (item a b) (.ofExcept (Lists.item a b)) s := by
  refine .ofExcept_bind fun items h => .ofExcept_bind fun index _ => ?_
  obtain rfl := of_asList h
  have short : items.length < 2 ^ 63 := fits
  have lower := index.lower
  have upper := index.upper
  have position : (if index.val < 0 then signed 64 (items.length + index.val) else some index.val) =
      some (if index.val < 0 then items.length + index.val else index.val) := by
    split
    · exact signed_eq (by omega) (by omega)
    · rfl
  dsimp only
  rw [toSigned_eq short]
  refine .step_bind position ?_
  generalize (if index.val < 0 then (items.length : Int) + index.val else index.val) = p
  split
  · rename_i within
    have here := List.getElem?_eq_getElem (l := items) (i := p.toNat) (by omega)
    rw [toPosition_eq within.1 (by omega), if_neg (by omega), here]
    exact .one_step rfl
  · rename_i outside
    by_cases negative : p < 0
    · rw [if_pos negative]
      exact .pure fun _ => rfl
    · rw [if_neg negative, List.getElem?_eq_none (by omega)]
      exact .pure fun _ => rfl

theorem append_follows {arguments : List Value} (two_le : 2 ≤ arguments.length) :
    Follows exact (append arguments) (.ofExcept (Lists.append arguments)) s := by
  obtain ⟨a, items, rfl⟩ := List.exists_cons_of_length_pos (Nat.lt_of_succ_lt two_le)
  refine .step_bind rfl (.ofExcept_bind fun first _ => .step_bind ?_ (.pure fun _ => rfl))
  exact itemsFrom_eq (Nat.le_of_succ_le two_le)

theorem tail_follows : Follows exact (tail a) (.ofExcept (Lists.tail a)) s := by
  refine .ofExcept_bind fun items _ => ?_
  split
  · rename_i few
    refine .pure fun _ => congrArg Value.list (List.eq_nil_of_length_eq_zero ?_).symm
    rw [List.length_tail]
    omega
  · rename_i many
    refine .step_bind (itemsFrom_eq (by omega)) (.pure fun _ => ?_)
    rw [List.drop_one]

theorem two_or_three {arguments : List Value}
    (accepts : (Arity.between 2 3).accepts arguments.length = true) :
    (∃ a b, arguments = [a, b]) ∨ ∃ a b c, arguments = [a, b, c] := by
  have count : 2 ≤ arguments.length ∧ arguments.length ≤ 3 := by
    simpa [Arity.accepts] using accepts
  rcases Nat.eq_or_lt_of_le count.1 with two | more
  · exact .inl (List.length_eq_two.1 two.symm)
  · exact .inr (List.length_eq_three.1 (Nat.le_antisymm count.2 more))

theorem slice_follows {text : String} {first last : Int} (short : text.length < 2 ^ 63) :
    Follows exact (slice text first last) (.ofExcept (Strings.slice text first last)) s := by
  unfold slice Strings.slice
  simp only [toSigned_eq short]
  split
  · exact .refl _
  · rename_i within
    simp only [Bool.or_eq_true, decide_eq_true_eq, not_or, not_lt] at within
    refine .step_bind (signed_eq (by omega) (by omega)) ?_
    rw [toPosition_eq within.1.1 (by omega), toPosition_eq (by omega) (by omega)]
    exact .pure fun _ => rfl

theorem substring_follows {arguments : List Value}
    (accepts : Primitive.substring.arity.accepts arguments.length = true)
    (fits : ∀ v ∈ arguments, v.Fits) :
    Follows exact (substring arguments) (.ofExcept (Strings.substring arguments)) s := by
  obtain ⟨a, b, rfl⟩ | ⟨a, b, c, rfl⟩ := two_or_three accepts
  · refine .step_bind rfl (.ofExcept_bind fun text h => .step_bind rfl ?_)
    obtain rfl := of_asString h
    refine .ofExcept_bind fun first _ => ?_
    have short : text.length < 2 ^ 63 := fits (.string text) List.mem_cons_self
    change Follows exact (slice text first.val (toSigned text.length)) _ s
    rw [toSigned_eq short]
    exact slice_follows short
  · refine .step_bind rfl (.ofExcept_bind fun text h => .step_bind rfl ?_)
    obtain rfl := of_asString h
    refine .ofExcept_bind fun first _ => .ofExcept_bind fun last _ => ?_
    exact slice_follows (fits (.string text) List.mem_cons_self)

theorem date_follows (plain : ∀ text, a = .string text → Date.HasPlainDay text) :
    Follows exact (date a) (.ofExcept (Dates.read a)) s := by
  cases a with
  | date d => exact .pure fun _ => rfl
  | string text =>
    refine .ofExcept_bind fun t h => ?_
    cases h
    split
    · exact .refl _
    · refine .step_bind (readDate_eq (plain text rfl)) ?_
      cases Date.read? text with
      | some d => exact .pure fun _ => rfl
      | none => exact .refl _
  | _ => exact .ofExcept_bind fun text h => by cases h

/-! ### Persons -/

section Tree
variable {tree : FamilyTree}

theorem attributeNamed_follows {today : Date} (now : Date.isRecordedYear today.year = true)
    (fits : a.Fits) :
    Follows exact (attributeNamed tree today a b)
      (.ofExcept (People.attributeNamed tree today a b)) s := by
  refine .ofExcept_bind fun p h => .ofExcept_bind fun name _ => ?_
  obtain rfl := of_asPerson h
  dsimp only
  split
  · rename_i age
    simp only [Date.isRecordedYear, Bool.and_eq_true, decide_eq_true_eq] at now
    have birth : -262143 ≤ p.birth.year ∧ p.birth.year ≤ 262142 := by
      simpa [Value.Fits, Date.isRecordedYear] using fits
    refine .step_bind (signed_eq (by omega) (by omega)) (.pure fun _ => ?_)
    rw [age]
    rfl
  · exact .pure fun _ => rfl

variable (small : exact → tree.size ≤ 2 ^ 32)
  (links : ∀ i v, tree.vertex? i = some v → ∀ j ∈ v.neighbours, j < tree.size)
include small links

theorem kinship_follows :
    Follows exact (kinship tree a b) (.ofExcept (People.kinship tree a b)) s := by
  refine .ofExcept_bind fun first h => .ofExcept_bind fun second _ => ?_
  obtain ⟨chain, run, -, same⟩ := kinship_spec (b := second) links (vertexOf_lt h)
  refine .step_bind run (.pure fun h => ?_)
  rw [same (small h)]
  rfl

theorem generationDistance_follows (size : tree.size < 2 ^ 63) :
    Follows exact (generationDistance tree a b)
      (.ofExcept (People.generationDistance tree a b)) s := by
  refine .ofExcept_bind fun first h => .ofExcept_bind fun second _ => ?_
  obtain ⟨chain, run, length, same⟩ := kinship_spec (b := second) links (vertexOf_lt h)
  refine .step_bind run (.step_bind (rises_eq (by omega)) (.pure fun h => ?_))
  rw [same (small h)]
  rfl

theorem relatives_follows (size : tree.size < 2 ^ 63) (dictionary : Dictionary) :
    Follows exact (relatives tree dictionary a b)
      (.ofExcept (People.relatives tree dictionary a b)) s := by
  refine .ofExcept_bind fun ego _ => .ofExcept_bind fun relation _ => ?_
  obtain ⟨kept, run, same⟩ := select_spec fun i hi =>
    isRelated_spec small links size (List.mem_range.1 hi)
  exact .step_bind run <| .pure fun h =>
    congrArg (fun found => Value.list (People.personsAt tree found)) (same h)

end Tree

theorem shorten_follows (dictionary : Dictionary) (fits : a.Fits) :
    Follows exact (shorten dictionary a) (.ofExcept (People.shorten dictionary a)) s := by
  refine .ofExcept_bind fun items h => .ofExcept_bind fun terms ht => ?_
  obtain rfl := of_asList h
  have length : terms.length = items.length := length_of_mapM ht
  have short : items.length < 2 ^ 63 := fits
  exact .step_bind (shorten_eq dictionary (Nat.lt_succ_self _) (by omega)) (.pure fun _ => rfl)

end Checked
end KinQuery
