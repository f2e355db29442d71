import KinQuery.Proofs.Dictionary.Origin
import KinQuery.Proofs.Dictionary.Segmentation
import KinQuery.Proofs.Evaluation.Task
import KinQuery.Proofs.Family.Neighbours
import KinQuery.Proofs.Session.FailedQuery

/-! The relatives of a person, by the kinship that they come down to.

Someone is a relative if the chain that names them, shortened with the dictionary, is one term that
belongs to the relation. The relation is read in small letters and the term is not, and the word
for a group of relatives stands for two basic terms and no longer for itself; so a term does not
always belong to the relation that it spells. Basic terms come down to themselves, and a group of
them is what the links of the tree lead to. -/
namespace KinQuery

variable {tree : FamilyTree} {g : Genealogy} {dictionary : Dictionary} {i ego : Nat} {p v : Profile}
  {term relation word : String}

namespace Session
variable {s : Session} {arguments : List Value} {answer : Value}

/-- What a primitive function answers in a session, whatever the bound on the depth. -/
def Answers (s : Session) (p : Primitive) (arguments : List Value) (v : Value) : Prop :=
  ∀ depth, ((apply (depth + 1) (.primitive p) arguments).run s).1 = .ok v

theorem answers_of_answer {p : Primitive} (reads : p.Reads)
    (accepts : p.arity.accepts arguments.length = true)
    (known : p.answer s.tree.1 s.dictionary s.today arguments = .ok answer) :
    s.Answers p arguments answer := by
  intro depth
  have arity : (Function.primitive p : Function Value).checkArity arguments.length = .ok () :=
    if_pos accepts
  obtain ⟨t, -, run⟩ := Primitive.run_call reads (apply depth) arguments s
  rw [apply_primitive, arity, Run.ofExcept_ok, pure_bind, run, known]
  rfl

end Session

/-! ### Persons at vertices -/

/-- A list of persons. -/
def Value.persons (people : List Profile) : Value :=
  .list (people.map .person)

namespace People
variable {indexes : List Nat}

/-- The persons at some vertices. -/
def profilesAt (tree : FamilyTree) (indexes : List Nat) : List Profile :=
  indexes.filterMap tree.person?

theorem list_personsAt (tree : FamilyTree) (indexes : List Nat) :
    .list (personsAt tree indexes) = Value.persons (profilesAt tree indexes) := by
  rw [Value.persons, profilesAt, List.map_filterMap]
  rfl

theorem mem_profilesAt_iff (mirror : tree.Mirrors g) (hv : tree.person? i = some v) :
    v ∈ profilesAt tree indexes ↔ i ∈ indexes := by
  rw [profilesAt, List.mem_filterMap]
  constructor
  · rintro ⟨k, member, hk⟩
    have same := (mirror.indexOf?_of_person? hv).symm.trans (mirror.indexOf?_of_person? hk)
    rwa [Option.some.inj same]
  · exact fun member => ⟨i, member, hv⟩

theorem ids_profilesAt_nodup (mirror : tree.Mirrors g) (nodup : indexes.Nodup) :
    ((profilesAt tree indexes).map (·.id)).Nodup := by
  rw [profilesAt, List.map_filterMap]
  refine nodup.filterMap fun k l id hk hl => ?_
  exact Option.some.inj (((mirror.place id k).2 hk).symm.trans ((mirror.place id l).2 hl))

theorem vertexOf_person (placed : tree.indexOf? p.id = some i) (operation : String) :
    vertexOf tree operation (.person p) = .ok i := by
  have known : (Value.person p).asPerson operation = .ok p := rfl
  simp only [vertexOf, known, bind, Except.bind, placed]

/-- The relatives of one person. -/
theorem related_person {operation : String} {links : Vertex → List Nat} {u : Vertex}
    (placed : tree.indexOf? p.id = some i) (hu : tree.vertex? i = some u) :
    related tree operation links (.person p) = .ok (.persons (profilesAt tree (links u))) := by
  unfold related
  change (do
    let relatives ← [Value.person p].mapM fun person => do
      let i ← vertexOf tree operation person
      .ok (personsAt tree (((tree.vertex? i).map links).getD []))
    .ok (.list relatives.flatten) : Except Failure Value) = _
  rw [List.mapM_cons, vertexOf_person placed]
  change Except.ok (Value.list _) = _
  simp [hu, list_personsAt]

/-! ### Relations -/

/-- The group of relatives that a word stands for. -/
def circleNamed : String → Option Circle
  | "child" | "children" => some .children
  | "parent" | "parents" => some .parents
  | "spouse" => some .spouse
  | _ => none

theorem belongs_circle {c : Circle} (named : circleNamed relation = some c) :
    belongs term relation = true ↔ ∃ kin : Kin, kin.circle = c ∧ term = kin.word := by
  have either {first second : Kin}
      (only : ∀ kin : Kin, kin.circle = c ↔ kin = first ∨ kin = second) :
      (decide (term = first.word) || decide (term = second.word)) = true ↔
        ∃ kin : Kin, kin.circle = c ∧ term = kin.word := by
    simp [only, or_and_right, exists_or]
  unfold circleNamed at named
  split at named <;> cases named
  all_goals exact either fun kin => by cases kin <;> decide

theorem belongs_other (none : circleNamed relation = none) :
    belongs term relation = true ↔ term = relation := by
  unfold belongs
  split
  case h_6 => exact decide_eq_true_iff
  all_goals simp [circleNamed] at none

/-- A term belongs to the relation of its own spelling if that is in small letters and stands for
no group. -/
theorem belongs_self_iff : belongs term (Text.lowerCase term) = true ↔
    Text.lowerCase term = term ∧ circleNamed term = none := by
  have basic (kin : Kin) : Text.lowerCase kin.word = kin.word := by cases kin <;> decide +kernel
  have ungrouped (kin : Kin) : circleNamed kin.word = none := by cases kin <;> decide +kernel
  cases group : circleNamed (Text.lowerCase term) with
  | none =>
    rw [belongs_other group]
    refine ⟨fun same => ⟨same.symm, ?_⟩, fun h => h.1.symm⟩
    rw [same, group]
  | some c =>
    -- Basic terms are in small letters, and none of them is the word for a group.
    rw [belongs_circle group]
    constructor
    · rintro ⟨kin, -, rfl⟩
      rw [basic, ungrouped] at group
      cases group
    · rintro ⟨small, ungrouped⟩
      rw [small, ungrouped] at group
      cases group

/-- What a chain comes down to has no blanks around it. -/
theorem trimmed_of_shorten {a b : Nat} (made : dictionary.Made)
    (short : dictionary.shorten (chain tree a b) = [term]) : Text.trimmed term = term := by
  have basic (kin : Kin) : Text.trimmed kin.word = kin.word := by cases kin <;> decide +kernel
  have member : term ∈ dictionary.shorten (chain tree a b) := by simp [short]
  rcases Dictionary.mem_of_mem_shorten member with link | ⟨part, named⟩
  · obtain ⟨kin, -, rfl⟩ := List.mem_map.1 link
    exact basic kin
  · exact made.trimmed_of_get? named

/-! ### Relatives -/

/-- The vertices whose chain to `ego` comes down to one term of the relation. -/
def relativesAt (tree : FamilyTree) (dictionary : Dictionary) (ego : Nat) (relation : String) :
    List Nat :=
  (List.range tree.size).filter fun i =>
    i ≠ ego && match dictionary.shorten (chain tree i ego) with
      | [term] => belongs term relation
      | _ => false

theorem relatives_person (placed : tree.indexOf? p.id = some ego) :
    relatives tree dictionary (.person p) (.string word) = .ok (.persons (profilesAt tree
      (relativesAt tree dictionary ego (Text.lowerCase (Text.trimmed word))))) := by
  unfold relatives
  rw [vertexOf_person placed, ← list_personsAt]
  rfl

theorem mem_relativesAt_iff : i ∈ relativesAt tree dictionary ego relation ↔
    i < tree.size ∧ i ≠ ego ∧
      ∃ term, dictionary.shorten (chain tree i ego) = [term] ∧ belongs term relation = true := by
  rw [relativesAt, List.mem_filter, List.mem_range, Bool.and_eq_true, decide_eq_true_eq]
  refine and_congr_right fun _ => and_congr_right fun _ => ?_
  split
  · rename_i term one
    simp [one]
  · rename_i other
    exact ⟨by simp, fun ⟨term, one, _⟩ => (other term one).elim⟩

/-- A chain comes down to a basic term only if it is that term, unless the term is a name. -/
theorem shorten_chain_eq_word_iff {a b : Nat} {kin : Kin}
    (names : ∀ part, dictionary.get? part ≠ some kin.word) :
    dictionary.shorten (chain tree a b) = [kin.word] ↔ tree.kinship a b = [kin] := by
  have injective : Function.Injective Kin.word := by
    intro a b
    cases a <;> cases b <;> decide
  rw [Dictionary.shorten_eq_singleton_iff, or_iff_left fun h => names _ h.2]
  exact (List.map_injective_iff.2 injective).eq_iff (b := [kin])

/-- In an orderly family whose basic terms are no names, the relatives of a group are those who
are linked in that way. -/
theorem mem_relativesAt_circle (mirror : tree.Mirrors g) (consistent : g.IsConsistent)
    (orderly : g.IsOrderly) (names : ∀ part (kin : Kin), dictionary.get? part ≠ some kin.word)
    {c : Circle} (named : circleNamed relation = some c) {u : Vertex}
    (hu : tree.vertex? ego = some u) :
    i ∈ relativesAt tree dictionary ego relation ↔ i ∈ c.links u := by
  -- No name is a basic term, so a chain comes down to one only if it is a single step.
  have short (hi : i < tree.size) (ne : i ≠ ego) :
      (∃ term, dictionary.shorten (chain tree i ego) = [term] ∧ belongs term relation = true) ↔
        i ∈ c.links u := by
    rw [← mirror.kinship_circle_iff orderly hi ne hu]
    constructor
    · rintro ⟨term, one, belongs⟩
      obtain ⟨kin, circle, rfl⟩ := (belongs_circle named).1 belongs
      exact ⟨kin, (shorten_chain_eq_word_iff fun part => names part kin).1 one, circle⟩
    · rintro ⟨kin, one, circle⟩
      exact ⟨kin.word, (shorten_chain_eq_word_iff fun part => names part kin).2 one,
        (belongs_circle named).2 ⟨kin, circle, rfl⟩⟩
  rw [mem_relativesAt_iff]
  constructor
  · exact fun ⟨hi, ne, one⟩ => (short hi ne).1 one
  · intro member
    have hi := mirror.linked_lt (FamilyTree.linked_iff_links.2 ⟨u, hu, c, member⟩)
    have ne := mirror.ne_of_mem_links consistent hu member
    exact ⟨hi, ne, (short hi ne).2 member⟩

theorem relativesAt_perm (mirror : tree.Mirrors g) (consistent : g.IsConsistent)
    (orderly : g.IsOrderly) (names : ∀ part (kin : Kin), dictionary.get? part ≠ some kin.word)
    {c : Circle} (named : circleNamed relation = some c) {u : Vertex}
    (hu : tree.vertex? ego = some u) :
    (relativesAt tree dictionary ego relation).Perm (c.links u) :=
  (List.perm_ext_iff_of_nodup (List.nodup_range.filter _) (mirror.links_nodup hu c)).2
    fun _ => mem_relativesAt_circle mirror consistent orderly names named hu

end People

/-- Ben with his father Abe, his daughter Cyd and his wife Dot, who is not her mother. -/
def Genealogy.lineage (day : Date) : Genealogy :=
  { people :=
      [{ id := 1, firstName := "Abe", lastName := "Lee", sex := .male, birth := day },
        { id := 2, firstName := "Ben", lastName := "Lee", sex := .male, birth := day },
        { id := 3, firstName := "Cyd", lastName := "Lee", sex := .female, birth := day },
        { id := 4, firstName := "Dot", lastName := "Ray", sex := .female, birth := day }]
    bonds := [.parental 1 2, .parental 2 3, .marital 2 4 day] }

theorem Genealogy.lineage_accepted (day : Date) :
    Genealogy.make (lineage day).people (lineage day).bonds = .ok (lineage day) := by
  cbv

namespace Session
variable {s : Session}

theorem answers_relatives (placed : s.tree.1.indexOf? p.id = some ego) (word : String) :
    s.Answers .relatives [.person p, .string word] (.persons (People.profilesAt s.tree.1
      (People.relativesAt s.tree.1 s.dictionary ego (Text.lowerCase (Text.trimmed word))))) :=
  answers_of_answer ⟨by decide, by decide, by decide⟩ rfl (People.relatives_person placed)

/-- Whoever's kinship to a person comes down to one term is among the relatives under that term
exactly if the term is in small letters and stands for no group of relatives. -/
theorem relatives_term_iff (reached : s.genealogy.Reachable) (made : s.dictionary.Made)
    {i j : Nat} {v ego : Profile} (hv : s.tree.1.person? i = some v)
    (hego : s.tree.1.person? j = some ego) (ne : i ≠ j) {term : String}
    (short : s.dictionary.shorten (People.chain s.tree.1 i j) = [term]) :
    ∃ found : List Profile,
      s.Answers .relatives [.person ego, .string term] (.persons found) ∧
        (v ∈ found ↔ Text.lowerCase term = term ∧ People.circleNamed term = none) := by
  have mirror : s.tree.1.Mirrors s.genealogy := reached.mirrors
  refine ⟨_, answers_relatives (mirror.indexOf?_of_person? hego) term, ?_⟩
  have trimmed : Text.trimmed term = term := People.trimmed_of_shorten made short
  obtain ⟨u, hu, -⟩ := Option.map_eq_some_iff.1 hv
  have inside : i < s.tree.1.size := (List.getElem?_eq_some_iff.1 hu).1
  rw [People.mem_profilesAt_iff mirror hv, trimmed, People.mem_relativesAt_iff,
    ← People.belongs_self_iff]
  constructor
  · rintro ⟨-, -, other, one, belongs⟩
    rw [short] at one
    cases one
    exact belongs
  · exact fun belongs => ⟨inside, ne, term, short, belongs⟩

/-- The family of Cyd, with a name for her grandfather and one for the wife of her father. -/
def ofLineage (grandfather stepmother : String) : Session :=
  { fresh with
    genealogy := Genealogy.lineage fresh.today
    dictionary := (({} : Dictionary).withEntry "father,father" grandfather).withEntry
      "father,wife" stepmother }

/-- Abe is found as Cyd's grandfather. -/
theorem relatives_term_iff_grandfather :
    let s := ofLineage "grandfather" "stepmother"
    ∃ abe cyd : Profile, s.genealogy.Reachable ∧ s.dictionary.Made ∧
      s.tree.1.person? 0 = some abe ∧ s.tree.1.person? 2 = some cyd ∧
      s.dictionary.shorten (People.chain s.tree.1 0 2) = ["grandfather"] ∧
      ∃ found, s.Answers .relatives [.person cyd, .string "grandfather"] (.persons found) ∧
        abe ∈ found := by
  intro s
  have reached : s.genealogy.Reachable := .make (Genealogy.lineage_accepted _)
  have made : s.dictionary.Made :=
    .insert "father,wife" "stepmother" (.insert "father,father" "grandfather" (.empty none) rfl) rfl
  have short : s.dictionary.shorten (People.chain s.tree.1 0 2) = ["grandfather"] := by
    decide +kernel
  obtain ⟨found, answer, member⟩ :=
    relatives_term_iff reached made (i := 0) (j := 2) rfl rfl (by decide) short
  exact ⟨_, _, reached, made, rfl, rfl, short, found, answer,
    member.2 ⟨by decide +kernel, by decide⟩⟩

/-- A name with a capital letter finds nobody; one that is the word for a group finds the group. -/
theorem relatives_term_missed :
    let s := ofLineage "Grandpa" "parent"
    s.genealogy.Reachable ∧ s.dictionary.Made ∧
      s.dictionary.shorten (People.chain s.tree.1 0 2) = ["Grandpa"] ∧
      s.dictionary.shorten (People.chain s.tree.1 3 2) = ["parent"] ∧
      (s.exec 5 "(relatives (person 'Cyd' 'Lee') 'Grandpa')").1.map Value.term = .ok "vacant" ∧
      (s.exec 5 "(relatives (person 'Cyd' 'Lee') 'parent')").1.map Value.term =
        .ok "(list (person 'Ben' 'Lee'))" := by
  have grandfather : readQuery "(relatives (person 'Cyd' 'Lee') 'Grandpa')" =
      .ok (.compound [.atom "relatives", .compound [.atom "person", .atom "'Cyd'", .atom "'Lee'"],
        .atom "'Grandpa'"]) := rfl
  have parent : readQuery "(relatives (person 'Cyd' 'Lee') 'parent')" =
      .ok (.compound [.atom "relatives", .compound [.atom "person", .atom "'Cyd'", .atom "'Lee'"],
        .atom "'parent'"]) := rfl
  intro s
  refine ⟨.make (Genealogy.lineage_accepted _), ?_, ?_, ?_, ?_, ?_⟩
  · exact .insert "father,wife" "parent" (.insert "father,father" "Grandpa" (.empty none) rfl) rfl
  · decide +kernel
  · decide +kernel
  · rw [exec_of_read grandfather]
    decide +kernel
  · rw [exec_of_read parent]
    decide +kernel

/-- Where nobody is married to a parent or child and no two persons are parents of each other,
and no name is a basic term, the relatives of a group are those that the links lead to, each
once. -/
theorem relatives_groups (reached : s.genealogy.Reachable) (orderly : s.genealogy.IsOrderly)
    (names : ∀ chain (kin : Kin), s.dictionary.get? chain ≠ some kin.word) {p : Profile}
    (hp : p ∈ s.genealogy.people) :
    ∃ fathers mothers children spouses : List Profile,
      s.Answers .father [.person p] (.persons fathers) ∧
      s.Answers .mother [.person p] (.persons mothers) ∧
      s.Answers .children [.person p] (.persons children) ∧
      s.Answers .spouse [.person p] (.persons spouses) ∧
      (∃ found, s.Answers .relatives [.person p, .string "parents"] (.persons found) ∧
        found.Perm (fathers ++ mothers) ∧ (found.map (·.id)).Nodup) ∧
      (∃ found, s.Answers .relatives [.person p, .string "children"] (.persons found) ∧
        found.Perm children ∧ (found.map (·.id)).Nodup) ∧
      ∃ found, s.Answers .relatives [.person p, .string "spouse"] (.persons found) ∧
        found.Perm spouses ∧ (found.map (·.id)).Nodup := by
  have consistent := reached.isConsistent
  have mirror : s.tree.1.Mirrors s.genealogy := reached.mirrors
  obtain ⟨i, hi⟩ := List.mem_iff_getElem?.1 hp
  rw [← mirror.person] at hi
  have placed := mirror.indexOf?_of_person? hi
  obtain ⟨u, hu, -⟩ := Option.map_eq_some_iff.1 hi
  have linked (links : Vertex → List Nat) (operation : String) :
      People.related s.tree.1 operation links (.person p) =
        .ok (.persons (People.profilesAt s.tree.1 (links u))) :=
    People.related_person placed hu
  have group (word : String) (c : Circle) (spelled : Text.lowerCase (Text.trimmed word) = word)
      (named : People.circleNamed word = some c) :
      ∃ found, s.Answers .relatives [.person p, .string word] (.persons found) ∧
        found.Perm (People.profilesAt s.tree.1 (c.links u)) ∧ (found.map (·.id)).Nodup := by
    refine ⟨_, answers_relatives placed word, ?_, ?_⟩
    · rw [spelled]
      exact (People.relativesAt_perm mirror consistent orderly names named hu).filterMap _
    · exact People.ids_profilesAt_nodup mirror (List.nodup_range.filter _)
  refine ⟨_, _, _, _, answers_of_answer ⟨by decide, by decide, by decide⟩ rfl (linked _ _),
    answers_of_answer ⟨by decide, by decide, by decide⟩ rfl (linked _ _),
    answers_of_answer ⟨by decide, by decide, by decide⟩ rfl (linked _ _),
    answers_of_answer ⟨by decide, by decide, by decide⟩ rfl (linked _ _), ?_,
    group _ .children (by decide +kernel) rfl, group _ .spouse (by decide +kernel) rfl⟩
  have parents := group "parents" .parents (by decide +kernel) rfl
  simpa [Circle.links, People.profilesAt] using parents

/-- Cyd, the daughter of Bob and Ann, has them for her parents. -/
theorem relatives_groups_daughter :
    let s : Session :=
      { fresh with
        genealogy := Genealogy.threesome
        dictionary := ({} : Dictionary).withEntry "mother,son" "brother" }
    ∃ cyd : Profile, s.genealogy.Reachable ∧ s.genealogy.IsOrderly ∧
      (∀ chain (kin : Kin), s.dictionary.get? chain ≠ some kin.word) ∧
      cyd ∈ s.genealogy.people ∧ cyd.firstName = "Cyd" ∧
      ∃ fathers mothers found : List Profile, s.Answers .father [.person cyd] (.persons fathers) ∧
        s.Answers .mother [.person cyd] (.persons mothers) ∧
        s.Answers .relatives [.person cyd, .string "parents"] (.persons found) ∧
        found.Perm (fathers ++ mothers) := by
  intro s
  have reached : s.genealogy.Reachable := .make Genealogy.threesome_accepted
  have orderly : s.genealogy.IsOrderly := by
    constructor
    · rintro a b wedding (h | h) <;>
      · obtain ⟨rfl, rfl, -⟩ : _ = 1 ∧ _ = 2 ∧ _ := by simpa [s, Genealogy.threesome] using h
        decide
    · intro a b h
      obtain ⟨rfl, rfl⟩ | ⟨rfl, rfl⟩ : a = 1 ∧ b = 3 ∨ a = 2 ∧ b = 3 := by
        simpa [s, Genealogy.threesome] using h
      all_goals decide
  have names (chain : List String) (kin : Kin) : s.dictionary.get? chain ≠ some kin.word := by
    rw [Dictionary.get?_withEntry]
    split
    · cases kin <;> decide +kernel
    · rintro ⟨⟩
  have member : s.genealogy.people.get ⟨2, by decide⟩ ∈ s.genealogy.people := List.get_mem _ _
  obtain ⟨fathers, mothers, -, -, father, mother, -, -, ⟨found, answer, perm, -⟩, -⟩ :=
    relatives_groups reached orderly names member
  exact ⟨_, reached, orderly, names, member, rfl, fathers, mothers, found, father, mother, answer,
    perm⟩

end Session
end KinQuery
