import KinQuery.Function.Call
import KinQuery.Proofs.Function.Matching

/-! Primitives cannot look inside functions.

Arguments that differ in their functions alone, related functions bearing one name and one
arity, have results that differ in their functions alone. Only the calls of the functions
themselves, in `filter` and `map`, are left out here. -/
namespace KinQuery

open List (Forall₂)

namespace Value
variable {F : Function Value → Function Value → Prop} {v w : Value}

theorem Lift.kind_eq (h : Lift F v w) : v.kind = w.kind := by
  cases h <;> rfl

theorem Lift.asBoolean (operation : String) (h : Lift F v w) :
    Matches Eq (v.asBoolean operation) (w.asBoolean operation) := by
  cases h <;> first | exact .ok rfl | exact .error rfl

theorem Lift.asNumeral (operation : String) (h : Lift F v w) :
    Matches Eq (v.asNumeral operation) (w.asNumeral operation) := by
  cases h <;> first | exact .ok rfl | exact .error rfl

theorem Lift.asString (operation : String) (h : Lift F v w) :
    Matches Eq (v.asString operation) (w.asString operation) := by
  cases h <;> first | exact .ok rfl | exact .error rfl

theorem Lift.asDate (operation : String) (h : Lift F v w) :
    Matches Eq (v.asDate operation) (w.asDate operation) := by
  cases h <;> first | exact .ok rfl | exact .error rfl

theorem Lift.asPerson (operation : String) (h : Lift F v w) :
    Matches Eq (v.asPerson operation) (w.asPerson operation) := by
  cases h <;> first | exact .ok rfl | exact .error rfl

theorem Lift.asList (operation : String) (h : Lift F v w) :
    Matches (Forall₂ (Lift F)) (v.asList operation) (w.asList operation) := by
  cases h with
  | list items => exact .ok items
  | _ => exact .error rfl

theorem Lift.asFunction (operation : String) (h : Lift F v w) :
    Matches F (v.asFunction operation) (w.asFunction operation) := by
  cases h with
  | function hf => exact .ok hf
  | _ => exact .error rfl

mutual

theorem Lift.same_eq (faithful : Faithful F) :
    ∀ {v w v' w' : Value}, Lift F v w → Lift F v' w' → v.same v' = w.same w'
  | .list _, _, _, _, .list h, h' => by
    cases h' with
    | list h' => simpa only [same] using Lift.sameItems_eq faithful h h'
    | _ => rfl
  | .function _, _, _, _, .function h, h' => by
    cases h' with
    | function h' => simp only [same, faithful.name h, faithful.name h']
    | _ => rfl
  | .boolean _, _, _, _, .boolean _, h' | .numeral _, _, _, _, .numeral _, h'
  | .string _, _, _, _, .string _, h' | .date _, _, _, _, .date _, h'
  | .person _, _, _, _, .person _, h' | .void, _, _, _, .void, h' => by cases h' <;> rfl

theorem Lift.sameItems_eq (faithful : Faithful F) :
    ∀ {as bs as' bs' : List Value}, Forall₂ (Lift F) as bs → Forall₂ (Lift F) as' bs' →
      sameItems as as' = sameItems bs bs'
  | [], _, _, _, .nil, .nil | [], _, _, _, .nil, .cons _ _
  | _ :: _, _, _, _, .cons _ _, .nil => rfl
  | _ :: _, _, _ :: _, _, .cons h rest, .cons h' rest' => by
    simp only [sameItems, Lift.same_eq faithful h h', Lift.sameItems_eq faithful rest rest']

end

end Value

/-! ### Taking arguments apart -/

namespace Primitive
variable {α β γ δ : Type} {A : Value → Value → Prop} {B : γ → δ → Prop}
  {xs ys : List Value} (p : Primitive)

theorem refuse_matches : Matches B (p.refuse xs) (p.refuse ys) :=
  .error rfl

theorem unary_matches {f : Value → Except Failure γ} {g : Value → Except Failure δ}
    (h : Forall₂ A xs ys) (each : ∀ a b, A a b → Matches B (f a) (g b)) :
    Matches B (p.unary xs f) (p.unary ys g) := by
  cases h with
  | nil => exact p.refuse_matches
  | cons ha rest =>
    cases rest with
    | nil => exact each _ _ ha
    | cons _ _ => exact p.refuse_matches

theorem binary_matches {f : Value → Value → Except Failure γ}
    {g : Value → Value → Except Failure δ} (h : Forall₂ A xs ys)
    (each : ∀ a b, A a b → ∀ a' b', A a' b' → Matches B (f a a') (g b b')) :
    Matches B (p.binary xs f) (p.binary ys g) := by
  cases h with
  | nil => exact p.refuse_matches
  | cons ha rest =>
    cases rest with
    | nil => exact p.refuse_matches
    | cons ha' rest =>
      cases rest with
      | nil => exact each _ _ ha _ _ ha'
      | cons _ _ => exact p.refuse_matches

theorem ternary_matches {f : Value → Value → Value → Except Failure γ}
    {g : Value → Value → Value → Except Failure δ} (h : Forall₂ A xs ys)
    (each : ∀ a b, A a b → ∀ a' b', A a' b' → ∀ a'' b'', A a'' b'' →
      Matches B (f a a' a'') (g b b' b'')) :
    Matches B (p.ternary xs f) (p.ternary ys g) := by
  cases h with
  | nil => exact p.refuse_matches
  | cons ha rest =>
    cases rest with
    | nil => exact p.refuse_matches
    | cons ha' rest =>
      cases rest with
      | nil => exact p.refuse_matches
      | cons ha'' rest =>
        cases rest with
        | nil => exact each _ _ ha _ _ ha' _ _ ha''
        | cons _ _ => exact p.refuse_matches

end Primitive

/-! ### Primitives that compute from their arguments alone -/

section Compute
variable {F : Function Value → Function Value → Prop} {v w v' w' v'' w'' : Value}
  {xs ys : List Value}

/-- Both sides know the result, which no function is part of. -/
theorem matches_of_eq {r q : Except Failure Value} (known : r = q)
    (plain : ∀ v, r = .ok v → Value.Lift F v v) : Matches (Value.Lift F) r q := by
  subst known
  cases r with
  | ok v => exact .ok (plain v rfl)
  | error f => exact .error rfl

theorem isOfKind_matches (h : Value.Lift F v w) (h' : Value.Lift F v' w') :
    Matches (Value.Lift F) (isOfKind v v') (isOfKind w w') := by
  refine (h'.asString _).bind fun name _ he => ?_
  subst he
  exact .ok (by rw [h.kind_eq]; exact .boolean _)

theorem Booleans.all_matches (operation : String) (h : Forall₂ (Value.Lift F) xs ys) :
    Matches Eq (Booleans.all operation xs) (Booleans.all operation ys) :=
  (Matches.mapM (fun _ _ hab => hab.asBoolean operation) h).mono fun _ _ hbs => by
    rwa [List.forall₂_eq_eq_eq] at hbs

theorem Booleans.conjunction_matches (h : Forall₂ (Value.Lift F) xs ys) :
    Matches (Value.Lift F) (Booleans.conjunction xs) (Booleans.conjunction ys) :=
  (Booleans.all_matches _ h).bind fun _ _ he => .ok (by subst he; exact .boolean _)

theorem Booleans.disjunction_matches (h : Forall₂ (Value.Lift F) xs ys) :
    Matches (Value.Lift F) (Booleans.disjunction xs) (Booleans.disjunction ys) :=
  (Booleans.all_matches _ h).bind fun _ _ he => .ok (by subst he; exact .boolean _)

theorem Booleans.negation_matches (h : Value.Lift F v w) :
    Matches (Value.Lift F) (Booleans.negation v) (Booleans.negation w) :=
  (h.asBoolean _).bind fun _ _ he => .ok (by subst he; exact .boolean _)

theorem Numerals.fold_matches (operation : String) (step : Numeral → Numeral → Option Numeral)
    (total : Numeral) (h : Forall₂ (Value.Lift F) xs ys) :
    Matches (Value.Lift F) (Numerals.fold operation step total xs)
      (Numerals.fold operation step total ys) := by
  induction h generalizing total with
  | nil => exact .ok (.numeral total)
  | cons ha _ ih =>
    refine (ha.asNumeral operation).bind fun n _ he => ?_
    subst he
    cases step total n with
    | some next => exact ih next
    | none => exact .error rfl

theorem Numerals.inRange_matches (operation : String) (n : Option Numeral) :
    Matches (Value.Lift F) (Numerals.inRange operation n) (Numerals.inRange operation n) := by
  cases n with
  | some n => exact .ok (.numeral n)
  | none => exact .error rfl

theorem Numerals.divisor_matches (operation : String) (h : Value.Lift F v w) :
    Matches Eq (Numerals.divisor operation v) (Numerals.divisor operation w) := by
  refine (h.asNumeral operation).bind fun n _ he => ?_
  subst he
  exact Matches.refl (fun _ => rfl) _

theorem Numerals.difference_matches (h : Value.Lift F v w) (h' : Value.Lift F v' w') :
    Matches (Value.Lift F) (Numerals.difference v v') (Numerals.difference w w') := by
  refine (h.asNumeral _).bind fun m _ he => (h'.asNumeral _).bind fun n _ he' => ?_
  subst he he'
  exact Numerals.inRange_matches _ _

theorem Numerals.quotient_matches (h : Value.Lift F v w) (h' : Value.Lift F v' w') :
    Matches (Value.Lift F) (Numerals.quotient v v') (Numerals.quotient w w') := by
  refine (h.asNumeral _).bind fun m _ he => (Numerals.divisor_matches _ h').bind fun n _ he' => ?_
  subst he he'
  exact Numerals.inRange_matches _ _

theorem Numerals.remainder_matches (h : Value.Lift F v w) (h' : Value.Lift F v' w') :
    Matches (Value.Lift F) (Numerals.remainder v v') (Numerals.remainder w w') := by
  refine (h.asNumeral _).bind fun m _ he => (Numerals.divisor_matches _ h').bind fun n _ he' => ?_
  subst he he'
  exact Numerals.inRange_matches _ _

theorem Numerals.compare_matches (operation : String) (test : Int → Int → Bool)
    (h : Value.Lift F v w) (h' : Value.Lift F v' w') :
    Matches (Value.Lift F) (Numerals.compare operation test v v')
      (Numerals.compare operation test w w') :=
  (h.asNumeral _).bind fun _ _ he => (h'.asNumeral _).bind fun _ _ he' =>
    .ok (by subst he he'; exact .boolean _)

theorem Strings.concat_matches (h : Forall₂ (Value.Lift F) xs ys) :
    Matches (Value.Lift F) (Strings.concat xs) (Strings.concat ys) :=
  (Matches.mapM (fun _ _ hab => hab.asString _) h).bind fun _ _ he =>
    .ok (by rw [List.forall₂_eq_eq_eq] at he; subst he; exact .string _)

theorem Strings.chars_matches (h : Value.Lift F v w) :
    Matches (Value.Lift F) (Strings.chars v) (Strings.chars w) := by
  refine (h.asString _).bind fun s _ he => .ok ?_
  subst he
  refine .list (List.forall₂_same.2 fun item hitem => ?_)
  obtain ⟨c, _, rfl⟩ := List.mem_map.1 hitem
  exact .string _

theorem Strings.slice_matches (s : String) (first last : Int) :
    Matches (Value.Lift F) (Strings.slice s first last) (Strings.slice s first last) := by
  unfold Strings.slice
  split
  · exact .error rfl
  · exact .ok (.string _)

theorem Strings.substring_matches (h : Forall₂ (Value.Lift F) xs ys) :
    Matches (Value.Lift F) (Strings.substring xs) (Strings.substring ys) := by
  match h with
  | .cons h (.cons h' .nil) =>
    refine (h.asString _).bind fun s _ he => (h'.asNumeral _).bind fun m _ he' => ?_
    subst he he'
    exact Strings.slice_matches _ _ _
  | .cons h (.cons h' (.cons h'' .nil)) =>
    refine (h.asString _).bind fun s _ he => (h'.asNumeral _).bind fun m _ he' =>
      (h''.asNumeral _).bind fun n _ he'' => ?_
    subst he he' he''
    exact Strings.slice_matches _ _ _
  | .nil | .cons _ .nil | .cons _ (.cons _ (.cons _ (.cons _ _))) => exact .error rfl

theorem Strings.ofNumeral_matches (h : Value.Lift F v w) :
    Matches (Value.Lift F) (Strings.ofNumeral v) (Strings.ofNumeral w) :=
  (h.asNumeral _).bind fun _ _ he => .ok (by subst he; exact .string _)

theorem Dates.before_matches (h : Value.Lift F v w) (h' : Value.Lift F v' w') :
    Matches (Value.Lift F) (Dates.before v v') (Dates.before w w') :=
  (h.asDate _).bind fun _ _ he => (h'.asDate _).bind fun _ _ he' =>
    .ok (by subst he he'; exact .boolean _)

theorem Dates.after_matches (h : Value.Lift F v w) (h' : Value.Lift F v' w') :
    Matches (Value.Lift F) (Dates.after v v') (Dates.after w w') :=
  (h.asDate _).bind fun _ _ he => (h'.asDate _).bind fun _ _ he' =>
    .ok (by subst he he'; exact .boolean _)

theorem Dates.during_matches (h : Value.Lift F v w) (h' : Value.Lift F v' w')
    (h'' : Value.Lift F v'' w'') :
    Matches (Value.Lift F) (Dates.during v v' v'') (Dates.during w w' w'') :=
  (h.asDate _).bind fun _ _ he => (h'.asDate _).bind fun _ _ he' =>
    (h''.asDate _).bind fun _ _ he'' => .ok (by subst he he' he''; exact .boolean _)

theorem Dates.part_matches (operation : String) (f : Date → Int) (h : Value.Lift F v w) :
    Matches (Value.Lift F) (Dates.part operation f v) (Dates.part operation f w) :=
  (h.asDate _).bind fun _ _ he => .ok (by subst he; exact .numeral _)

theorem Dates.read_matches (h : Value.Lift F v w) :
    Matches (Value.Lift F) (Dates.read v) (Dates.read w) := by
  cases h with
  | string s =>
    refine matches_of_eq rfl fun v hv => ?_
    simp only [Dates.read, Value.asString, bind, Except.bind] at hv
    split at hv
    · cases hv
    · split at hv
      · cases hv
        exact .date _
      · cases hv
  | date d => exact .ok (.date d)
  | _ => exact .error rfl

theorem Lists.count_matches (h : Value.Lift F v w) :
    Matches (Value.Lift F) (Lists.count v) (Lists.count w) :=
  (h.asList _).bind fun _ _ he => .ok (by rw [he.length_eq]; exact .numeral _)

theorem getElem?_matches (h : Forall₂ (Value.Lift F) xs ys) (i : Nat) :
    Value.Lift F (xs[i]?.getD .void) (ys[i]?.getD .void) := by
  induction h generalizing i with
  | nil => simpa using Value.Lift.void
  | cons ha _ ih =>
    cases i with
    | zero => simpa using ha
    | succ i => simpa using ih i

theorem Lists.item_matches (h : Value.Lift F v w) (h' : Value.Lift F v' w') :
    Matches (Value.Lift F) (Lists.item v v') (Lists.item w w') := by
  refine (h.asList _).bind fun items others he => (h'.asNumeral _).bind fun index _ he' => ?_
  subst he'
  simp only [he.length_eq]
  generalize (if index.val < 0 then (others.length : Int) + index.val else index.val) = position
  split
  · exact .ok Value.Lift.void
  · exact .ok (getElem?_matches he _)

theorem Lists.join_matches (h : Forall₂ (Value.Lift F) xs ys) :
    Matches (Value.Lift F) (Lists.join xs) (Lists.join ys) :=
  (Matches.mapM (fun _ _ hab => hab.asList _) h).bind fun _ _ he =>
    .ok (.list (List.rel_flatten he))

theorem Lists.append_matches (h : Forall₂ (Value.Lift F) xs ys) :
    Matches (Value.Lift F) (Lists.append xs) (Lists.append ys) := by
  cases h with
  | nil => exact .error rfl
  | cons h rest =>
    exact (h.asList _).bind fun _ _ he => .ok (.list (List.rel_append he rest))

theorem Lists.head_matches (h : Value.Lift F v w) :
    Matches (Value.Lift F) (Lists.head v) (Lists.head w) := by
  refine (h.asList _).bind fun _ _ he => .ok ?_
  cases he with
  | nil => exact .list .nil
  | cons h _ => exact h

theorem Lists.tail_matches (h : Value.Lift F v w) :
    Matches (Value.Lift F) (Lists.tail v) (Lists.tail w) := by
  refine (h.asList _).bind fun _ _ he => .ok (.list ?_)
  cases he with
  | nil => exact .nil
  | cons _ rest => exact rest

/-- Only the comparison of values sees their functions, by name. -/
theorem Primitive.compute_matches (p : Primitive) (faithful : p = .equal → Value.Faithful F)
    (h : Forall₂ (Value.Lift F) xs ys) :
    Matches (Value.Lift F) (p.compute xs) (p.compute ys) := by
  cases p
  case equal =>
    exact binary_matches _ h fun _ _ ha _ _ hb =>
      .ok (by rw [Value.Lift.same_eq (faithful rfl) ha hb]; exact .boolean _)
  case ofType => exact binary_matches _ h fun _ _ ha _ _ hb => isOfKind_matches ha hb
  case and => exact Booleans.conjunction_matches h
  case or => exact Booleans.disjunction_matches h
  case not => exact unary_matches _ h fun _ _ ha => Booleans.negation_matches ha
  case add => exact Numerals.fold_matches _ _ _ h
  case multiply => exact Numerals.fold_matches _ _ _ h
  case subtract => exact binary_matches _ h fun _ _ ha _ _ hb => Numerals.difference_matches ha hb
  case divide => exact binary_matches _ h fun _ _ ha _ _ hb => Numerals.quotient_matches ha hb
  case remainder => exact binary_matches _ h fun _ _ ha _ _ hb => Numerals.remainder_matches ha hb
  case less | atMost | greater | atLeast =>
    exact binary_matches _ h fun _ _ ha _ _ hb => Numerals.compare_matches _ _ ha hb
  case concat => exact Strings.concat_matches h
  case chars => exact unary_matches _ h fun _ _ ha => Strings.chars_matches ha
  case substring => exact Strings.substring_matches h
  case string => exact unary_matches _ h fun _ _ ha => Strings.ofNumeral_matches ha
  case before => exact binary_matches _ h fun _ _ ha _ _ hb => Dates.before_matches ha hb
  case after => exact binary_matches _ h fun _ _ ha _ _ hb => Dates.after_matches ha hb
  case during =>
    exact ternary_matches _ h fun _ _ ha _ _ hb _ _ hc => Dates.during_matches ha hb hc
  case day | month | year => exact unary_matches _ h fun _ _ ha => Dates.part_matches _ _ ha
  case date => exact unary_matches _ h fun _ _ ha => Dates.read_matches ha
  case list => exact .ok (.list h)
  case count => exact unary_matches _ h fun _ _ ha => Lists.count_matches ha
  case «at» => exact binary_matches _ h fun _ _ ha _ _ hb => Lists.item_matches ha hb
  case join => exact Lists.join_matches h
  case append => exact Lists.append_matches h
  case head => exact unary_matches _ h fun _ _ ha => Lists.head_matches ha
  case tail => exact unary_matches _ h fun _ _ ha => Lists.tail_matches ha
  all_goals exact refuse_matches _

/-! ### Primitives that look at the family tree or the dictionary -/

namespace People
variable (tree : FamilyTree) (dictionary : Dictionary)

theorem personsAt_lift (indexes : List Nat) :
    Value.Lift F (.list (personsAt tree indexes)) (.list (personsAt tree indexes)) := by
  refine .list (List.forall₂_same.2 fun item hitem => ?_)
  obtain ⟨i, _, hi⟩ := List.mem_filterMap.1 hitem
  obtain ⟨p, _, rfl⟩ := Option.map_eq_some_iff.1 hi
  exact .person p

theorem strings_lift (chain : List String) : Value.Lift F (strings chain) (strings chain) := by
  refine .list (List.forall₂_same.2 fun item hitem => ?_)
  obtain ⟨term, _, rfl⟩ := List.mem_map.1 hitem
  exact .string term

theorem vertexOf_matches (operation : String) (h : Value.Lift F v w) :
    Matches Eq (vertexOf tree operation v) (vertexOf tree operation w) := by
  refine (h.asPerson operation).bind fun p _ he => ?_
  subst he
  exact Matches.refl (fun _ => rfl) _

theorem find_matches (h : Forall₂ (Value.Lift F) xs ys) :
    Matches (Value.Lift F) (find tree xs) (find tree ys) := by
  have found (i : Option Nat) : Value.Lift F (((i.bind tree.person?).map .person).getD .void)
      (((i.bind tree.person?).map .person).getD .void) := by
    cases i.bind tree.person? with
    | some p => exact .person p
    | none => exact .void
  match h with
  | .cons h .nil => exact (h.asString _).bind fun _ _ he => .ok (by subst he; exact found _)
  | .cons h (.cons h' .nil) =>
    exact (h.asString _).bind fun _ _ he => (h'.asString _).bind fun _ _ he' =>
      .ok (by subst he he'; exact found _)
  | .nil | .cons _ (.cons _ (.cons _ _)) => exact .error rfl

theorem related_matches (operation : String) (links : Vertex → List Nat)
    (h : Value.Lift F v w) :
    Matches (Value.Lift F) (related tree operation links v) (related tree operation links w) := by
  have each (a b : Value) (hab : Value.Lift F a b) :
      Matches (Forall₂ (Value.Lift F))
        (do let i ← vertexOf tree operation a
            .ok (personsAt tree (((tree.vertex? i).map links).getD [])))
        (do let i ← vertexOf tree operation b
            .ok (personsAt tree (((tree.vertex? i).map links).getD []))) := by
    refine (vertexOf_matches tree operation hab).bind fun i _ he => .ok ?_
    subst he
    cases personsAt_lift (F := F) tree (((tree.vertex? i).map links).getD []) with
    | list items => exact items
  have whole {as bs : List Value} (hab : Forall₂ (Value.Lift F) as bs) :=
    (Matches.mapM each hab).bind (B := Value.Lift F) (f := fun rs => .ok (.list rs.flatten))
      (g := fun rs => .ok (.list rs.flatten)) fun _ _ he => .ok (.list (List.rel_flatten he))
  cases h with
  | list items => exact whole items
  | boolean b => exact whole (.cons (.boolean b) .nil)
  | numeral n => exact whole (.cons (.numeral n) .nil)
  | string s => exact whole (.cons (.string s) .nil)
  | date d => exact whole (.cons (.date d) .nil)
  | person p => exact whole (.cons (.person p) .nil)
  | function hf => exact whole (.cons (.function hf) .nil)
  | void => exact whole (.cons .void .nil)

theorem attributeOf_lift (today : Date) (p : Profile) (name : String) :
    Value.Lift F (attributeOf tree today p name) (attributeOf tree today p name) := by
  have wedding (d? : Option Date) :
      Value.Lift F ((d?.map .date).getD .void) ((d?.map .date).getD .void) := by
    cases d? with
    | none => exact .void
    | some d => exact .date d
  unfold attributeOf
  split
  case h_17 | h_18 | h_19 | h_20 | h_21 | h_22 =>
    cases (tree.indexOf? p.id).bind tree.vertex? with
    | none => exact .void
    | some vertex => exact wedding vertex.wedding
  all_goals constructor

theorem attributeNamed_matches (today : Date) (h : Value.Lift F v w)
    (h' : Value.Lift F v' w') :
    Matches (Value.Lift F) (attributeNamed tree today v v') (attributeNamed tree today w w') :=
  (h.asPerson _).bind fun _ _ he => (h'.asString _).bind fun _ _ he' =>
    .ok (by subst he he'; exact attributeOf_lift tree today _ _)

theorem kinship_matches (h : Value.Lift F v w) (h' : Value.Lift F v' w') :
    Matches (Value.Lift F) (kinship tree v v') (kinship tree w w') :=
  (vertexOf_matches tree _ h).bind fun _ _ he => (vertexOf_matches tree _ h').bind fun _ _ he' =>
    .ok (by subst he he'; exact strings_lift _)

theorem generationDistance_matches (h : Value.Lift F v w) (h' : Value.Lift F v' w') :
    Matches (Value.Lift F) (generationDistance tree v v') (generationDistance tree w w') :=
  (vertexOf_matches tree _ h).bind fun _ _ he => (vertexOf_matches tree _ h').bind fun _ _ he' =>
    .ok (by subst he he'; exact .numeral _)

theorem shorten_matches (h : Value.Lift F v w) :
    Matches (Value.Lift F) (shorten dictionary v) (shorten dictionary w) :=
  (h.asList _).bind fun _ _ he => (Matches.mapM (fun _ _ hab => hab.asString _) he).bind
    fun _ _ he' => .ok (by rw [List.forall₂_eq_eq_eq] at he'; subst he'; exact strings_lift _)

theorem relatives_matches (h : Value.Lift F v w) (h' : Value.Lift F v' w') :
    Matches (Value.Lift F) (relatives tree dictionary v v') (relatives tree dictionary w w') :=
  (vertexOf_matches tree _ h).bind fun _ _ he => (h'.asString _).bind fun _ _ he' =>
    .ok (by subst he he'; exact personsAt_lift tree _)

end People

end Compute
end KinQuery
