import KinQuery.Proofs.Evaluation.Application
import KinQuery.Proofs.Family.Finding
import KinQuery.Proofs.Session.Literal
import KinQuery.Proofs.Session.Naming

/-! Persons as they are printed, and whom the print finds.

A person is printed as a query that applies a primitive to two words, the names. Such queries are
read as they are written, no definition gets into them, and where no result is kept they are
answered with what the primitive answers: the first who bears the names, who need not be the
person that was printed. -/
namespace KinQuery

variable {s t : Session} {p : Primitive} {items : List Value} {v : Value} {n : Nat}

namespace Primitive

theorem isNeat_name (p : Primitive) : (Term.atom p.name : Term Value).IsNeat :=
  -- A test over the list; a statement about all `c` would be decided character by character.
  Term.isNeat_of_all (by cases p <;> decide) (by cases p <;> decide)

/-- The application of a primitive to values as terms. -/
def applied (p : Primitive) (items : List Value) : Term Value :=
  .compound (.atom p.name :: items.map Value.expand)

theorem isBare_applied (literal : ∀ item ∈ items, item.IsLiteral) : (p.applied items).IsBare := by
  refine .compound (List.forall_mem_cons.2 ⟨.atom p.isAtomText_name, fun part hpart => ?_⟩)
  obtain ⟨item, member, rfl⟩ := List.mem_map.1 hpart
  exact (literal item member).isBare

theorem isNeat_applied (literal : ∀ item ∈ items, item.IsLiteral) : (p.applied items).IsNeat := by
  refine Term.isNeat_compound (by simp) (List.forall_mem_cons.2 ⟨p.isNeat_name, ?_⟩)
  intro part hpart
  obtain ⟨item, member, rfl⟩ := List.mem_map.1 hpart
  exact (literal item member).isNeat

theorem readQuery_applied (literal : ∀ item ∈ items, item.IsLiteral) :
    readQuery (p.applied items).key = .ok (p.applied items) :=
  Term.readQuery_key (isBare_applied literal) (isNeat_applied literal)

theorem substitute_applied (named : s.IsNamed) (literal : ∀ item ∈ items, item.IsLiteral) :
    (p.applied items).substitute s.bindings = p.applied items := by
  have head : (Term.atom p.name).substitute s.bindings = .atom p.name := by
    rw [Term.substitute, Session.bindings, named.undefined_primitive p]
  have rest : (items.map Value.expand).map (Term.substitute s.bindings) =
      items.map Value.expand := by
    rw [List.map_map]
    exact List.map_congr_left fun item member => (literal item member).substitute named
  have ordinary : p.name ≠ "define" ∧ p.name ≠ "lambda" := by
    cases p <;> decide
  rw [applied, Term.substitute_parts, List.map_cons, head, rest]
  · simpa using ordinary.1
  · intro parameters body same
    exact ordinary.2 (Term.atom.inj (List.cons.inj same).1)

end Primitive

/-! ### Evaluation -/

theorem run_words (words : ∀ item ∈ items, item.IsWord) (s : Session) :
    ∃ t, s.SameButTree t ∧
      ((items.map Value.expand).mapM (eval (n + 1))).run s = (.ok items, t) := by
  induction items generalizing s with
  | nil => exact ⟨s, .inl rfl, rfl⟩
  | cons item items ih =>
    obtain ⟨word, rest⟩ := List.forall_mem_cons.1 words
    obtain ⟨t, same, run⟩ := run_evalAtom item.key s
    rw [word.atomAnswer_key] at run
    obtain ⟨u, same', runs⟩ := ih rest t
    refine ⟨u, same.trans same', ?_⟩
    have first : (eval (n + 1) item.expand).run s = (.ok item, t) := by
      rw [Value.expand_of_isWord word]
      exact run
    rw [List.map_cons, List.mapM_cons, Run.run_bind_ok first, Run.run_bind_ok runs]
    rfl

/-- Words leave the primitive the session that they found, but for the tree. -/
theorem run_applyTo_words (named : s.IsNamed) (reads : p.Reads)
    (accepts : p.arity.accepts items.length = true) (words : ∀ item ∈ items, item.IsWord)
    (known : p.answer s.tree.1 s.dictionary s.today items = .ok v) :
    ∃ t, (applyTo (eval (n + 1)) (apply (n + 1)) (.atom p.name) (items.map Value.expand)).run s =
      (.ok v, t) := by
  have arity : (Function.primitive p : Function Value).checkArity items.length = .ok () :=
    if_pos accepts
  obtain ⟨t, same, run⟩ := run_words (n := n) words s
  obtain ⟨u, -, call⟩ := Primitive.run_call reads (apply n) items t
  have seen : p.answer t.tree.1 t.dictionary t.today items = .ok v := by
    obtain ⟨tree, dictionary, today⟩ := World.mk.injEq .. ▸ same.world
    rw [tree, dictionary, today, known]
  rw [seen] at call
  refine ⟨u, ?_⟩
  rw [applyTo, Run.run_bind_ok ((named.names_primitive p).written.head n), List.length_map, arity,
    Run.ofExcept_ok, pure_bind, Run.run_bind_ok run, apply_primitive, arity, Run.ofExcept_ok,
    pure_bind]
  exact call

/-- An application whose result is not kept comes to what applying the function comes to. -/
theorem run_eval_unkept {head : Term Value} {arguments : List (Term Value)}
    (special : (Term.compound (head :: arguments)).specialForm? = none)
    (unknown : s.cache.enabled = true →
      s.cache.get? (Term.compound (head :: arguments)).key = none)
    (applied : (applyTo (eval n) (apply n) head arguments).run s = (.ok v, t)) :
    ∃ u, (eval (n + 1) (.compound (head :: arguments))).run s = (.ok v, u) := by
  rw [eval_compound, evalCompound, special]
  dsimp only
  cases enabled : s.cache.enabled with
  | true =>
    rw [Run.run_evalApplication_new enabled (unknown enabled), Run.run_bind_ok applied]
    exact ⟨_, rfl⟩
  | false =>
    rw [Run.run_evalApplication_uncached enabled, applied]
    exact ⟨_, rfl⟩

namespace Session

/-- A primitive applied to words comes to what it answers, if no result is kept that would be
used instead. -/
theorem IsNamed.run_applied (named : s.IsNamed)
    (unknown : s.cache.enabled = true → s.cache.discard.get? (p.applied items).key = none)
    (reads : p.Reads) (accepts : p.arity.accepts items.length = true)
    (words : ∀ item ∈ items, item.IsWord)
    (known : p.answer s.tree.1 s.dictionary s.today items = .ok v) (n : Nat) :
    ∃ u, (eval (n + 2) (p.applied items)).run (s.mapCache .discard) = (.ok v, u) := by
  have special := (named.names_primitive p).applies (items.map Value.expand)
  have start : (s.mapCache .discard).IsNamed := named.sameNames ⟨rfl, rfl⟩
  obtain ⟨t, run⟩ := run_applyTo_words (n := n) start reads accepts words known
  exact run_eval_unkept (s := s.mapCache .discard) special unknown run

/-- The query that applies a primitive to words is answered with what the primitive answers. -/
theorem IsNamed.exec_applied (named : s.IsNamed)
    (unkept : s.cache.size = 0 ∨ s.cache.enabled = false) (reads : p.Reads)
    (accepts : p.arity.accepts items.length = true)
    (literal : ∀ item ∈ items, item.IsLiteral ∧ item.IsWord)
    (known : p.answer s.tree.1 s.dictionary s.today items = .ok v) (n : Nat) :
    (s.exec (n + 2) (p.applied items).key).1 = .ok v := by
  have special := (named.names_primitive p).applies (items.map Value.expand)
  have literals : ∀ item ∈ items, item.IsLiteral := fun item member => (literal item member).1
  obtain ⟨u, evaluated⟩ := named.run_applied (Cache.get?_discard_of_unkept unkept · _) reads accepts
    (fun item member => (literal item member).2) known n
  exact Session.exec_of_eval (Primitive.readQuery_applied literals) special
    (Primitive.substitute_applied named literals) evaluated

end Session

/-! ### Persons -/

theorem People.find_names {tree : FamilyTree} {first last : String} {k : Nat} {q : Profile}
    (found : tree.find? first last = some k) (hq : tree.person? k = some q) :
    find tree [.string first, .string last] = .ok (.person q) := by
  change Except.ok ((((tree.find? first last).bind tree.person?).map Value.person).getD .void) = _
  rw [found, Option.bind_some, hq]
  rfl

/-- The names of a person as values. -/
def Profile.names (p : Profile) : List Value :=
  [.string p.firstName, .string p.lastName]

theorem Value.term_person (p : Profile) :
    (Value.person p).term = (Primitive.person.applied p.names).key := by
  have word (name : String) : (Value.string name).expand = .atom (Value.stringLiteral name) :=
    Value.expand_of_isAtomic trivial
  rw [Primitive.applied, Profile.names, List.map_cons, List.map_cons, List.map_nil, word, word]
  rfl

theorem Profile.isLiteral_names (p : Profile)
    (free : ∀ field ∈ p.texts, Text.quote ∉ field.2.toList)
    (unmarked : Text.marker ∉ p.firstName.toList ∧ Text.marker ∉ p.lastName.toList) :
    ∀ item ∈ p.names, item.IsLiteral ∧ item.IsWord := by
  have first : Text.quote ∉ p.firstName.toList := free ("first name", _) (by simp [texts])
  have last : Text.quote ∉ p.lastName.toList := free ("last name", _) (by simp [texts])
  simp only [names, List.mem_cons, List.not_mem_nil, or_false]
  rintro item (rfl | rfl)
  · exact ⟨.string first unmarked.1, first⟩
  · exact ⟨.string last unmarked.2, last⟩

namespace Session

/-- Whatever a session lives through, while it keeps no results, a person printed as a term is a
query that finds someone; and that is the same person exactly if nobody before them in the
genealogy bears their names. -/
theorem Lived.exec_person (lived : s.Lived)
    (unkept : s.cache.size = 0 ∨ s.cache.enabled = false) {i : Nat} {p : Profile}
    (hp : s.genealogy.people[i]? = some p)
    (unmarked : Text.marker ∉ p.firstName.toList ∧ Text.marker ∉ p.lastName.toList) :
    ∃ q, (∀ depth, 2 ≤ depth → (s.exec depth (Value.person p).term).1 = .ok (.person q)) ∧
      (q.id = p.id ↔
        ∀ j < i, ∀ other, s.genealogy.people[j]? = some other → p.namesFind other = false) := by
  have reached := lived.reachable
  have mirror : s.tree.1.Mirrors s.genealogy := reached.mirrors
  obtain ⟨k, q, found, hq, same⟩ := mirror.exists_found hp
  refine ⟨q, fun depth deep => ?_, same⟩
  obtain ⟨n, rfl⟩ : ∃ n, depth = n + 2 := ⟨depth - 2, by omega⟩
  have free := reached.isConsistent.free p (List.mem_of_getElem? hp)
  rw [Value.term_person]
  exact lived.isNamed.exec_applied (p := .person) unkept ⟨by decide, by decide, by decide⟩ rfl
    (p.isLiteral_names free unmarked) (People.find_names found hq) n

/-- Cyd is printed by her names, and they find her. -/
theorem Lived.exec_person_daughter :
    ∃ (s : Session) (cyd : Profile), s.Lived ∧ s.cache.size = 0 ∧
      s.genealogy.people[2]? = some cyd ∧ (Value.person cyd).term = "(person 'Cyd' 'Lee')" ∧
      ∃ q, (∀ depth, 2 ≤ depth → (s.exec depth (Value.person cyd).term).1 = .ok (.person q)) ∧
        q.id = cyd.id := by
  let today : Date := ⟨2020, 6, 15, by decide, by decide, by decide, by decide⟩
  let s : Session := { genealogy := Genealogy.threesome, today }
  have lived : s.Lived := .start {} today Genealogy.threesome_accepted
  obtain ⟨q, finds, same⟩ :=
    lived.exec_person (.inl rfl) (i := 2) rfl ⟨by decide +kernel, by decide +kernel⟩
  refine ⟨s, _, lived, rfl, rfl, by decide +kernel, q, finds, same.2 fun j before other here => ?_⟩
  obtain rfl | rfl : j = 0 ∨ j = 1 := by omega
  · cases here
    decide +kernel
  · cases here
    decide +kernel

/-- Ann Lee, another in capital letters, and a Lee without a first name are all printed as terms
that find the first of them. -/
theorem Lived.exec_person_mistaken :
    ∃ s : Session, s.Lived ∧ s.cache.size = 0 ∧ s.genealogy.people.map (·.id) = [1, 2, 3] ∧
      (∀ p ∈ s.genealogy.people, ∀ field ∈ p.texts, Text.marker ∉ field.2.toList) ∧
      ∀ p ∈ s.genealogy.people,
        (s.exec 5 (Value.person p).term).1.map Value.key = .ok "(person #1)" := by
  let day : Date := ⟨1950, 1, 2, by decide, by decide, by decide, by decide⟩
  let people : List Profile :=
    [{ id := 1, firstName := "Ann", lastName := "Lee", sex := .female, birth := day },
      { id := 2, firstName := "ANN", lastName := "LEE", sex := .female, birth := day },
      { id := 3, firstName := "", lastName := "Lee", sex := .female, birth := day }]
  have accepted : Genealogy.make people [] = .ok { people } := by cbv
  refine ⟨{ genealogy := { people }, today := day }, .start {} day accepted, rfl, rfl,
    by decide +kernel, ?_⟩
  simp only [people, List.forall_mem_cons, List.not_mem_nil, IsEmpty.forall_iff, implies_true,
    and_true]
  refine ⟨?_, ?_, ?_⟩
  · rw [exec_of_read (t := .compound [.atom "person", .atom "'Ann'", .atom "'Lee'"]) (by cbv)]
    decide +kernel
  · rw [exec_of_read (t := .compound [.atom "person", .atom "'ANN'", .atom "'LEE'"]) (by cbv)]
    decide +kernel
  · rw [exec_of_read (t := .compound [.atom "person", .atom "''", .atom "'Lee'"]) (by cbv)]
    decide +kernel

end Session
end KinQuery
