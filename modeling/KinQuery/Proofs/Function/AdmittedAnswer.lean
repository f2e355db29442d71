import KinQuery.Proofs.Dictionary.Lookup
import KinQuery.Proofs.Function.Admitted

/-! Answers about persons, and values of literals, keep to a vocabulary. -/
namespace KinQuery

variable {g : Vocabulary} {fits : Char → Prop} {w : World} {v a b : Value}
  {arguments : List Value}

/-! ### Persons -/

namespace People

theorem holds_of_person? {i : Nat} {p : Profile} (h : w.tree.person? i = some p) : w.Holds p := by
  obtain ⟨vertex, hvertex, rfl⟩ := Option.map_eq_some_iff.1 h
  exact ⟨vertex, List.mem_of_getElem? hvertex, rfl⟩

theorem word_common (kin : Kin) : ∀ c ∈ kin.word.toList, Text.IsCommon c := by
  have letters : kin.word.toList.all isLetter = true := by cases kin <;> decide
  exact fun c hc => .inl (List.all_eq_true.1 letters c hc)

theorem sex_common (sex : Sex) : ∀ c ∈ sex.name.toList, Text.IsCommon c := by
  have letters : sex.name.toList.all isLetter = true := by cases sex <;> decide
  exact fun c hc => .inl (List.all_eq_true.1 letters c hc)

section Admitted
variable (admits : g.Admits fits w)
include admits

theorem obeys_of_holds {p : Profile} (h : w.Holds p) : (Value.person p).Obeys g :=
  Value.obeys_person.2 (admits.person p h)

theorem personsAt_obeys (indexes : List Nat) : ∀ item ∈ personsAt w.tree indexes, item.Obeys g := by
  intro item hitem
  obtain ⟨i, -, hi⟩ := List.mem_filterMap.1 hitem
  obtain ⟨p, hp, rfl⟩ := Option.map_eq_some_iff.1 hi
  exact obeys_of_holds admits (holds_of_person? hp)

theorem everyone_obeys : (everyone w.tree).Obeys g := by
  refine Value.obeys_list.2 fun item hitem => ?_
  obtain ⟨vertex, hvertex, rfl⟩ := List.mem_map.1 hitem
  exact obeys_of_holds admits ⟨vertex, hvertex, rfl⟩

theorem strings_obeys {chain : List String} (h : ∀ term ∈ chain, ∀ c ∈ term.toList, fits c) :
    (strings chain).Obeys g := by
  refine Value.obeys_list.2 fun item hitem => ?_
  obtain ⟨term, hterm, rfl⟩ := List.mem_map.1 hitem
  exact admits.obeys_string.2 (h term hterm)

theorem find_obeys : Gives (Value.Obeys g) (find w.tree arguments) := by
  have found (i : Option Nat) :
      Gives (Value.Obeys g) (.ok (((i.bind w.tree.person?).map .person).getD .void)) := by
    refine .ok ?_
    cases h : i.bind w.tree.person? with
    | none => exact admits.obeys_void
    | some p =>
      obtain ⟨i, -, hp⟩ := Option.bind_eq_some_iff.1 h
      exact obeys_of_holds admits (holds_of_person? hp)
  unfold find
  dsimp only
  split
  · exact (Gives.trivial _).bind fun _ _ => (Gives.trivial _).bind fun i _ => found i
  · exact (Gives.trivial _).bind fun _ _ => (Gives.trivial _).bind fun _ _ =>
      (Gives.trivial _).bind fun i _ => found i
  · exact (Gives.trivial _).bind fun i _ => found i

theorem related_obeys (operation : String) (links : Vertex → List Nat) :
    Gives (Value.Obeys g) (related w.tree operation links a) := by
  have each (person : Value) : Gives (fun items => ∀ item ∈ items, item.Obeys g)
      (do let i ← vertexOf w.tree operation person
          .ok (personsAt w.tree (((w.tree.vertex? i).map links).getD []))) :=
    (Gives.trivial _).bind fun i _ => .ok (personsAt_obeys admits _)
  unfold related
  refine (Gives.mapM fun person _ => each person).bind fun relatives hr => ?_
  refine .ok (Value.obeys_list.2 fun item hitem => ?_)
  obtain ⟨items, hitems, hitem⟩ := List.mem_flatten.1 hitem
  exact hr items hitems item hitem

theorem attributeOf_obeys {p : Profile} (hp : g.leaf (.person p)) (name : String) :
    (attributeOf w.tree w.today p name).Obeys g := by
  have texts (field text : String) (h : (field, text) ∈ p.texts) : ∀ c ∈ text.toList, fits c :=
    admits.texts p hp (field, text) h
  have first := texts "first name" p.firstName (by simp [Profile.texts])
  have last := texts "last name" p.lastName (by simp [Profile.texts])
  have space : fits ' ' := admits.common ' ' (.inr (.inr (.inr rfl)))
  have full : ∀ c ∈ p.fullName.toList, fits c := by
    simp only [Profile.fullName, String.toList_append, List.forall_mem_append]
    exact ⟨⟨first, by simpa using space⟩, last⟩
  have birth := Value.obeys_date.2 (admits.birth p hp)
  unfold attributeOf
  split
  · exact admits.obeys_string.2 first
  · exact admits.obeys_string.2 last
  · exact admits.obeys_string.2 last
  · exact admits.obeys_string.2 full
  · exact admits.obeys_numeral _
  iterate 3 exact birth
  iterate 2 exact admits.obeys_text (sex_common p.sex)
  · exact admits.obeys_string.2 (texts "occupation" _ (by simp [Profile.texts]))
  iterate 3 exact admits.obeys_string.2 (texts "phone" _ (by simp [Profile.texts]))
  iterate 2 exact admits.obeys_string.2 (texts "email" _ (by simp [Profile.texts]))
  iterate 6
    split
    · rename_i vertex hvertex
      obtain ⟨i, -, hi⟩ := Option.bind_eq_some_iff.1 hvertex
      cases h : vertex.wedding with
      | none => exact admits.obeys_void
      | some d =>
        exact Value.obeys_date.2 (admits.wedding vertex (List.mem_of_getElem? hi) d h)
    · exact admits.obeys_void
  · exact admits.obeys_void

theorem attributeNamed_obeys (ha : a.Obeys g) :
    Gives (Value.Obeys g) (attributeNamed w.tree w.today a b) := by
  have known (p : Profile) (hp : g.leaf (.person p)) (name : String) :
      (attributeOf w.tree w.today p name).Obeys g := attributeOf_obeys admits hp name
  unfold attributeNamed
  generalize attributeOf w.tree w.today = attributes at known
  exact (ha.asPerson _).bind fun p hp => (Gives.trivial _).bind fun name _ => .ok (known p hp _)

theorem chain_obeys (i j : Nat) : (strings (chain w.tree i j)).Obeys g := by
  refine strings_obeys admits fun term hterm c hc => ?_
  obtain ⟨kin, -, rfl⟩ := List.mem_map.1 hterm
  exact admits.common c (word_common kin c hc)

theorem shorten_obeys (ha : a.Obeys g) : Gives (Value.Obeys g) (shorten w.dictionary a) := by
  refine (ha.asList _).bind fun items hi => ?_
  refine (Gives.mapM fun item hitem => admits.asString _ (hi item hitem)).bind fun terms ht => ?_
  refine .ok (strings_obeys admits fun term hterm => ?_)
  rcases Dictionary.mem_of_mem_shorten hterm with hterm | ⟨part, hpart⟩
  · exact ht term hterm
  · exact admits.names part term hpart

end Admitted
end People

/-- Primitives that only read answer arguments within a vocabulary with values within it. -/
theorem Primitive.answer_obeys (admits : g.Admits fits w) (p : Primitive)
    (good : ∀ v ∈ arguments, v.Obeys g) :
    Gives (Value.Obeys g) (p.answer w.tree w.dictionary w.today arguments) := by
  have computed := Primitive.compute_obeys admits p good
  cases p
  case person => exact People.find_obeys admits
  case father | mother | spouse | children =>
    exact unary_obeys good fun _ _ => People.related_obeys admits _ _
  case attr =>
    exact binary_obeys good fun _ _ ha _ => People.attributeNamed_obeys admits ha
  case kinship =>
    exact binary_obeys good fun _ _ _ _ => (Gives.trivial _).bind fun i _ =>
      (Gives.trivial _).bind fun j _ => .ok (People.chain_obeys admits i j)
  case generationDistance =>
    exact binary_obeys good fun _ _ _ _ => (Gives.trivial _).bind fun _ _ =>
      (Gives.trivial _).bind fun _ _ => .ok (admits.obeys_numeral _)
  case shorten => exact unary_obeys good fun _ ha => People.shorten_obeys admits ha
  case relatives =>
    exact binary_obeys good fun _ _ _ _ => (Gives.trivial _).bind fun _ _ =>
      (Gives.trivial _).bind fun _ _ => .ok (Value.obeys_list.2 (People.personsAt_obeys admits _))
  all_goals exact computed

/-! ### Literals -/

/-- A text between quotes, without the quotes. -/
theorem fits_unquoted {text : String} (fitting : ∀ c ∈ text.toList, c ≠ Text.quote → fits c)
    (quoted : Kind.isQuoted text.toList = true) : ∀ c ∈ (unquoted text).toList, fits c := by
  rw [unquoted, String.toList_ofList]
  cases h : text.toList with
  | nil =>
    rw [h] at quoted
    cases quoted
  | cons c cs =>
    rw [h] at quoted fitting
    simp only [Kind.isQuoted, Bool.and_eq_true, Bool.not_eq_true', List.contains_eq_mem,
      decide_eq_false_iff_not] at quoted
    intro d hd
    refine fitting d (List.mem_cons_of_mem _ (List.dropLast_subset _ hd)) ?_
    rintro rfl
    exact quoted.2 hd

theorem literalAnswer_obeys (admits : g.Admits fits w) {kind : Kind} {text : String}
    (fitting : ∀ c ∈ text.toList, c ≠ Text.quote → fits c) :
    Gives (Value.Obeys g) (literalAnswer kind text w.tree w.today) := by
  unfold literalAnswer
  split
  · exact .error _
  · rename_i accepted
    cases kind with
    | numeral =>
      dsimp only
      split
      · exact .ok (admits.obeys_numeral _)
      · exact .error _
    | date =>
      dsimp only
      split
      · exact .ok (Value.obeys_date.2 admits.today)
      · split
        · rename_i d hd
          exact .ok (Value.obeys_date.2 (admits.spelled text d fitting hd))
        · exact .error _
    | string =>
      have quoted : Kind.isQuoted text.toList = true := by simpa [Kind.accepts] using accepted
      exact .ok (admits.obeys_string.2 (fits_unquoted fitting quoted))
    | boolean => exact .ok (admits.obeys_boolean _)
    | void => exact .ok admits.obeys_void
    | list => exact .ok Value.obeys_vacant
    | person => exact .ok (People.everyone_obeys admits)
    | function => exact .error _

end KinQuery
