import KinQuery.Proofs.Caching.Query

/-! Queries that fail where results are not kept. -/
namespace KinQuery.Session

/-- A query that fails where results are not kept fails where they are kept, with a failure of
the same class. Parameters have names of their own, and one side of every comparison is seen to
hold no functions. -/
theorem execEach_fails {people : List Profile} {bonds : List Bond} {genealogy : Genealogy}
    (accepted : Genealogy.make people bonds = .ok genealogy)
    (births : ∀ p ∈ people, p.birth.IsSpellable)
    (weddings : ∀ first second d, .marital first second d ∈ bonds → d.IsSpellable)
    (profiles : ∀ p ∈ people, ∀ field ∈ p.texts, Text.HasAsciiDigits field.2.toList)
    {dictionary : Dictionary} (made : dictionary.Made)
    (entries : ∀ entry ∈ dictionary.entries, Text.HasAsciiDigits entry.2.toList)
    {today : Date} (spellable : today.IsSpellable)
    {locals : List String} (opened : ∀ name ∈ locals, IsOpen name) {queries : List String}
    (words : ∀ query ∈ queries, ∀ t, readQuery query = .ok t → t.Obeys .tidyWords)
    (apart : ∀ query ∈ queries, ∀ t, readQuery query = .ok t → t.KeepsApart (· ∈ locals) [])
    {depth : Nat}
    (ended : .error .tooDeep ∉
      (execEach depth queries (setCaching { genealogy, dictionary, today } false)).1) :
    ∃ bound, ∀ deeper, bound ≤ deeper →
      let start : Session := { genealogy, dictionary, today }
      ∀ (i : Nat) (failure : Failure),
        (execEach depth queries (start.setCaching false)).1[i]? = some (.error (.failed failure)) →
          ∃ failure' : Failure, failure'.failureClass = failure.failureClass ∧
            (execEach deeper queries (start.setCaching true)).1[i]? =
              some (.error (.failed failure')) := by
  let start : Session := { genealogy, dictionary, today }
  have world : start.world.IsPlain :=
    world_isPlain accepted births weddings profiles made entries spellable rfl rfl rfl
  let C : Convention := ⟨start.world, world, (· ∈ locals), opened⟩
  have paired : Paired C (start.setCaching false) (start.setCaching true) :=
    .intro (D := []) (E := []) ⟨by simp, by simp⟩ (fun _ => id) ⟨rfl, rfl, rfl, rfl⟩
      ⟨rfl, rfl, rfl, by simp [Cache.IsBacked, start, setCaching, mapCache]⟩
  have tidy (query : String) (hquery : query ∈ queries) (t : Term Value)
      (h : readQuery query = .ok t) : t.IsTidy C [] :=
    Term.isTidy_of_words (words query hquery t h) (apart query hquery t h) h
  obtain ⟨bound, accords⟩ := paired.execEach tidy ended
  refine ⟨bound, fun deeper deep i failure failed => ?_⟩
  obtain ⟨answer, found, accord⟩ := exists_getElem?_of_forall₂ (accords deeper deep) failed
  cases accord with
  | @failed _ failure' same => exact ⟨failure', same.symm, found⟩

theorem execEach_fails_twice :
    let birth : Date := ⟨1970, 1, 31, by decide, by decide, by decide, by decide⟩
    let ann : Profile := { id := 1, firstName := "Ann", lastName := "Lee", sex := .female, birth }
    let start : Session := { genealogy := { people := [ann] }, today := birth }
    let queries := ["(define twice (lambda (x) (+ x x)))", "(twice 2)", "(twice void)"]
    Genealogy.make [ann] [] = .ok { people := [ann] } ∧
      (execEach 9 queries (start.setCaching false)).1.map (·.map Value.key) =
        [.ok "void", .ok "4", .error (.failed (.wrongKind "+" .numeral .void "void"))] ∧
      ∃ bound, ∀ deeper, bound ≤ deeper → ∀ (i : Nat) (failure : Failure),
        (execEach 9 queries (start.setCaching false)).1[i]? = some (.error (.failed failure)) →
          ∃ failure' : Failure, failure'.failureClass = failure.failureClass ∧
            (execEach deeper queries (start.setCaching true)).1[i]? =
              some (.error (.failed failure')) := by
  have first : readQuery "(define twice (lambda (x) (+ x x)))" = .ok (.compound [.atom "define",
      .atom "twice", .compound [.atom "lambda", .compound [.atom "x"],
        .compound [.atom "+", .atom "x", .atom "x"]]]) := by cbv
  have second : readQuery "(twice 2)" = .ok (.compound [.atom "twice", .atom "2"]) := by cbv
  have third : readQuery "(twice void)" = .ok (.compound [.atom "twice", .atom "void"]) := by cbv
  intro birth ann start queries
  have accepted : Genealogy.make [ann] [] = .ok { people := [ann] } := by cbv
  have spellable : birth.IsSpellable := ⟨by decide, by decide⟩
  have answers : (execEach 9 queries (start.setCaching false)).1.map (·.map Value.key) =
      [.ok "void", .ok "4", .error (.failed (.wrongKind "+" .numeral .void "void"))] := by
    simp only [queries, execEach, exec_of_read first, exec_of_read second, exec_of_read third]
    decide +kernel
  have ended : .error .tooDeep ∉ (execEach 9 queries (start.setCaching false)).1 := by
    intro deep
    have mapped := List.mem_map_of_mem (f := (·.map Value.key)) deep
    rw [answers] at mapped
    simp [Except.map] at mapped
  have word : ∀ text ∈ ["define", "twice", "lambda", "x", "+", "2", "void"],
      (Term.atom text : Term Value).Obeys .tidyWords := by
    have tidy : ∀ text ∈ ["define", "twice", "lambda", "x", "+", "2", "void"],
        IsTidyWord text := by decide +kernel
    exact fun text member => Term.obeys_atom.2 (tidy text member)
  have opened : ∀ name ∈ ["x"], IsOpen name :=
    List.forall_mem_singleton.2 ⟨⟨by decide, by decide⟩, by decide⟩
  refine ⟨accepted, answers, execEach_fails accepted ?_ ?_ ?_ (.empty none) ?_ spellable opened
    ?_ ?_ ended⟩
  · rw [List.forall_mem_singleton]
    exact spellable
  · simp
  · decide +kernel
  · simp
  · simp only [queries, List.forall_mem_cons, first, second, third, Except.ok.injEq, forall_eq']
    simp [word]
  · have other {text : String} (bound : List String) (notEqual : text ≠ Primitive.equal.name)
        (free : text ≠ "x") : (Term.atom text : Term Value).KeepsApart (· ∈ ["x"]) bound :=
      .atom notEqual fun here => absurd (List.mem_singleton.1 here) free
    have parameter : (Term.atom "x" : Term Value).KeepsApart (· ∈ ["x"]) ["x"] :=
      .atom (by decide) id
    have sum : (Term.compound [.atom "+", .atom "x", .atom "x"] : Term Value).KeepsApart
        (· ∈ ["x"]) ["x"] :=
      .parts (by simp) (by simp) (List.forall_mem_cons.2 ⟨other _ (by decide) (by decide),
        List.forall_mem_cons.2 ⟨parameter, List.forall_mem_singleton.2 parameter⟩⟩)
    have bare : (Term.compound [.atom "x"] : Term Value).IsBare :=
      .compound (by simpa using .atom (.of_all (by decide) (by decide)))
    have lambda : (Term.compound [.atom "lambda", .compound [.atom "x"],
        .compound [.atom "+", .atom "x", .atom "x"]] : Term Value).KeepsApart (· ∈ ["x"]) [] :=
      .lambda bare (by simp [Term.declared, Term.atom?]) sum
    have applied {text : String} (notEqual : text ≠ Primitive.equal.name) (free : text ≠ "x") :
        (Term.compound [.atom "twice", .atom text] : Term Value).KeepsApart (· ∈ ["x"]) [] :=
      .parts (by simp) (by simp) (List.forall_mem_cons.2 ⟨other _ (by decide) (by decide),
        List.forall_mem_singleton.2 (other _ notEqual free)⟩)
    have defined : ∀ name ∈ [Term.atom "twice"].head?, name.KeepsApart (· ∈ ["x"]) [] := by
      rintro _ ⟨⟩
      exact other _ (by decide) (by decide)
    simp only [queries, List.forall_mem_cons, first, second, third, Except.ok.injEq, forall_eq']
    exact ⟨.define defined (List.forall_mem_singleton.2 lambda), applied (by decide) (by decide),
      applied (by decide) (by decide), by simp⟩

/-- The mark of a person is no term, but the query is answered with what was kept for the
person herself. -/
theorem execEach_answers_mark :
    let birth : Date := ⟨1970, 1, 31, by decide, by decide, by decide, by decide⟩
    let ann : Profile := { id := 1, firstName := "Ann", lastName := "Lee", sex := .female, birth }
    let start : Session := { genealogy := { people := [ann] }, today := birth }
    let queries := ["(define p (head people))", "(children p)", "(children (person #1))"]
    Genealogy.make [ann] [] = .ok { people := [ann] } ∧
      (execEach 9 queries (start.setCaching false)).1.map (·.map Value.key) =
        [.ok "void", .ok "vacant", .error (.failed (.unbound "#1"))] ∧
      (execEach 9 queries (start.setCaching true)).1.map (·.map Value.key) =
        [.ok "void", .ok "vacant", .ok "vacant"] := by
  have first : readQuery "(define p (head people))" = .ok (.compound [.atom "define", .atom "p",
      .compound [.atom "head", .atom "people"]]) := by cbv
  have second : readQuery "(children p)" = .ok (.compound [.atom "children", .atom "p"]) := by cbv
  have third : readQuery "(children (person #1))" = .ok (.compound [.atom "children",
      .compound [.atom "person", .atom "#1"]]) := by cbv
  intro birth ann start queries
  simp only [queries, execEach, exec_of_read first, exec_of_read second, exec_of_read third]
  exact ⟨by cbv, by decide +kernel, by decide +kernel⟩

end KinQuery.Session
