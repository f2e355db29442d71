import KinQuery.Proofs.Family.FullName
import KinQuery.Proofs.Session.Definition
import KinQuery.Proofs.Session.Person
import KinQuery.Settings.Start

/-! Persons that are looked up by their full names: by a query that asks for the full name first,
and by the setting that says who `ego` is. -/
namespace KinQuery

variable {s : Session} {name : String}

/-! ### Full names -/

namespace People

theorem attributeNamed_fullName (tree : FamilyTree) (today : Date) (p : Profile) :
    attributeNamed tree today (.person p) (.string "full name") = .ok (.string p.fullName) := by
  have spelled : Text.lowerCase (Text.trimmed "full name") = "full name" := by decide +kernel
  change Except.ok (attributeOf tree today p (Text.lowerCase (Text.trimmed "full name"))) = _
  rw [spelled]
  rfl

theorem find_fullName {tree : FamilyTree} {p : Profile} {i : Nat}
    (found : tree.findByFullName? name = some i) (hp : tree.person? i = some p) :
    find tree [.string name] = .ok (.person p) := by
  simp only [find, Value.asString, bind, Except.bind, found, Option.bind_some, hp, Option.map_some,
    Option.getD_some]

end People

namespace Settings

theorem chars_definition (name fullName : String) :
    (Term.definition name (Primitive.person.applied [.string fullName])).chars =
      "(define ".toList ++ name.toList ++ " (person '".toList ++ fullName.toList ++ "'))".toList := by
  have word : (Value.string fullName).expand = .atom (Value.stringLiteral fullName) :=
    Value.expand_of_isAtomic trivial
  have define : SpecialForm.define.word = "define" := rfl
  have person : Primitive.person.name = "person" := rfl
  rw [Term.definition, Primitive.applied, List.map_cons, List.map_nil, word, Term.chars_compound]
  simp only [Term.charsOfParts, List.map_cons, List.map_nil, Term.chars_atom, Term.chars_compound,
    define, person]
  simp [Value.stringLiteral]

/-- Without quotes in the name, the query is a definition. -/
theorem egoQuery_eq {fullName : String} (free : Text.quote ∉ fullName.toList) :
    egoQuery fullName = (Term.definition "ego" (Primitive.person.applied [.string fullName])).key := by
  have whole : fullName.toList.filter (· ≠ Text.quote) = fullName.toList := by
    refine List.filter_eq_self.2 fun c hc => ?_
    rw [decide_eq_true_eq]
    rintro rfl
    exact free hc
  apply String.toList_injective
  change _ = Term.chars _
  unfold egoQuery
  rw [chars_definition, whole, String.ofList_toList]
  simp only [String.toList_append]
  rfl

/-- The setting defines `ego` as the person whom the name finds, if the name is free and no result
is kept that would be used instead. -/
theorem defineEgo_of_found {settings : Settings} {fullName : String} {p : Profile} {i : Nat}
    (asked : settings.ego = some fullName) (named : s.IsNamed)
    (unquoted : Text.quote ∉ fullName.toList) (unmarked : Text.marker ∉ fullName.toList)
    (free : checkUndefined s "ego" = .ok ())
    (unknown : s.cache.enabled = true →
      s.cache.entries.lookup (Primitive.person.applied [.string fullName]).key = none)
    (found : s.tree.1.findByFullName? fullName = some i) (hp : s.tree.1.person? i = some p)
    (n : Nat) : (settings.defineEgo (n + 2) s).1 = .ok () ∧
      (settings.defineEgo (n + 2) s).2.definition? "ego" = some (.person p) := by
  have literals : ∀ item ∈ [Value.string fullName], item.IsLiteral :=
    List.forall_mem_singleton.2 (.string unquoted unmarked)
  have words : ∀ item ∈ [Value.string fullName], item.IsWord :=
    List.forall_mem_singleton.2 unquoted
  have spelled : (Term.atom "ego" : Term Value).IsNeat :=
    Term.isNeat_letters (by decide) (by decide)
  have unkept : s.cache.enabled = true →
      s.cache.discard.get? (Primitive.person.applied [.string fullName]).key = none := by
    intro enabled
    rw [Cache.get?, Cache.discard, unknown enabled]
    rfl
  obtain ⟨u, run⟩ := named.run_applied (p := .person) unkept ⟨by decide, by decide, by decide⟩ rfl
    words (People.find_fullName found hp) n
  rw [← Primitive.substitute_applied named literals (p := .person)] at run
  have read := readQuery_definition (by decide) spelled
    (Primitive.isBare_applied (p := .person) literals) (Primitive.isNeat_applied literals)
  rw [← egoQuery_eq unquoted] at read
  have executed := Session.exec_definition read (by decide) free run
  rw [defineEgo, asked]
  dsimp only
  rw [executed]
  exact ⟨rfl, by simp [Session.definition?, Session.mapCache]⟩

end Settings

namespace FamilyTree.IsNamedApart

/-- In a tree where everyone has two names and a full name of their own, the full name finds the
person exactly if the first name has no space. Then the person is found by the full name that is
asked for as an attribute, and the setting can name the person as `ego`. -/
theorem finds_full_names {tree : FamilyTree} {p : Profile} {i : Nat} (named : tree.IsNamedApart)
    (hp : tree.person? i = some p) :
    (tree.findByFullName? p.fullName = some i ↔ ' ' ∉ p.firstName.toList) ∧
      (' ' ∉ p.firstName.toList →
        (∀ dictionary today,
          (Primitive.attr.answer tree dictionary today [.person p, .string "full name"]).bind
            (fun name => Primitive.person.answer tree dictionary today [name]) = .ok (.person p)) ∧
        ∀ (s : Session) (settings : Settings), s.Lived → s.tree.1 = tree →
          settings.ego = some p.fullName → Text.marker ∉ p.fullName.toList →
          checkUndefined s "ego" = .ok () →
          (s.cache.enabled = true → s.cache.entries.lookup
            (Primitive.person.applied [.string p.fullName]).key = none) →
          ∀ depth, 2 ≤ depth → (settings.defineEgo depth s).1 = .ok () ∧
            (settings.defineEgo depth s).2.definition? "ego" = some (.person p)) := by
  refine ⟨named.findByFullName?_eq_iff hp, fun whole => ?_⟩
  have found := (named.findByFullName?_eq_iff hp).2 whole
  constructor
  · intro dictionary today
    have asked : Primitive.attr.answer tree dictionary today [.person p, .string "full name"] =
        .ok (.string p.fullName) := People.attributeNamed_fullName tree today p
    rw [asked]
    exact People.find_fullName found hp
  · rintro s settings lived rfl asked unmarked free unknown depth deep
    obtain ⟨n, rfl⟩ : ∃ n, depth = n + 2 := ⟨depth - 2, by omega⟩
    have mirror : s.tree.1.Mirrors s.genealogy := lived.reachable.mirrors
    have member : p ∈ s.genealogy.people := List.mem_of_getElem? ((mirror.person i).symm.trans hp)
    have unquoted : Text.quote ∉ p.fullName.toList := by
      have texts := lived.reachable.isConsistent.free p member
      have first := texts ("first name", p.firstName) (by simp [Profile.texts])
      have last := texts ("last name", p.lastName) (by simp [Profile.texts])
      have space : Text.quote ≠ ' ' := by decide
      simpa [Profile.fullName, space] using ⟨first, last⟩
    exact Settings.defineEgo_of_found asked lived.isNamed unquoted unmarked free unknown found hp n

/-- Cyd is found by her full name, and can be `ego`. -/
theorem finds_full_names_daughter :
    ∃ (s : Session) (settings : Settings) (cyd : Profile), s.Lived ∧ s.tree.1.IsNamedApart ∧
      s.tree.1.person? 2 = some cyd ∧ cyd.fullName = "Cyd Lee" ∧ settings.ego = some "Cyd Lee" ∧
      s.tree.1.findByFullName? cyd.fullName = some 2 ∧
      ∀ depth, 2 ≤ depth → (settings.defineEgo depth s).1 = .ok () ∧
        (settings.defineEgo depth s).2.definition? "ego" = some (.person cyd) := by
  let today : Date := ⟨2020, 6, 15, by decide, by decide, by decide, by decide⟩
  let s : Session := { genealogy := Genealogy.threesome, today }
  have lived : s.Lived := .start {} today Genealogy.threesome_accepted
  have named : s.tree.1.IsNamedApart :=
    ⟨by decide +kernel, by decide +kernel, by decide +kernel⟩
  obtain ⟨iff, finds⟩ := named.finds_full_names (i := 2) rfl
  have whole : ' ' ∉ "Cyd".toList := by decide
  refine ⟨s, { ego := some "Cyd Lee" }, _, lived, named, rfl, by decide, rfl, iff.2 whole,
    (finds whole).2 s _ lived rfl (by decide) (by decide) (by decide +kernel) fun _ => rfl⟩

/-- Mary Ann Lee is looked for as a Mary whose last name is Ann Lee, and is not found. -/
theorem not_findByFullName?_spaced :
    ∃ (g : Genealogy) (mary : Profile), Genealogy.make [mary] [] = .ok g ∧
      g.tree.1.IsNamedApart ∧ g.tree.1.person? 0 = some mary ∧ mary.fullName = "Mary Ann Lee" ∧
      g.tree.1.findByFullName? mary.fullName = none := by
  let mary : Profile :=
    { id := 1, firstName := "Mary Ann", lastName := "Lee", sex := .female,
      birth := ⟨1950, 1, 2, by decide, by decide, by decide, by decide⟩ }
  have accepted : Genealogy.make [mary] [] = .ok { people := [mary] } := by cbv
  exact ⟨_, mary, accepted, ⟨by decide +kernel, by decide +kernel, by decide +kernel⟩, rfl,
    by decide, by decide +kernel⟩

end FamilyTree.IsNamedApart
end KinQuery
