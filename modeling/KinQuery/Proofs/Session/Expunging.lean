import KinQuery.Proofs.Evaluation.Contract
import KinQuery.Proofs.Session.Caching
import KinQuery.Proofs.Session.FailedQuery
import KinQuery.Proofs.Session.Tame

/-! What is kept of queries that may change the dictionary.

The steps of evaluation keep sessions tame, whether they add to the dictionary or not. A term
that cannot reach `put-kinship-term` has one meaning while it is evaluated; any other may keep
whatever it comes to, since no term without this word has its key. So after any number of
queries, each result that is kept for a term without it is the one that the term has now. -/
namespace KinQuery

open Run (Triple Discipline Conduct)

variable {c s t : Session} {v : Value} {depth : Nat} {query : String} {task : Task}
  {arguments : List Value}

/-! ### The steps of evaluation -/

/-- The session stays tame and shows what it showed, but for the dictionary. -/
def Session.taming (c : Session) : Discipline where
  holds s := s.Tame ∧ c.Alike s
  change _ _ := True
  refl _ := trivial
  trans _ _ := trivial

/-- What is known of values, in all sessions that show the same. -/
theorem Session.Alike.isTameIn (h : c.Alike s) : v.IsTameIn s.world ↔ v.IsTameIn c.world := by
  rw [Value.IsTameIn, Value.IsTameIn, Vocabulary.tame, Vocabulary.tame, h.spelled]

theorem taming_kept (s t : Session) (hs : c.taming.holds s) (same : s.SameButTree t) :
    c.taming.holds t ∧ c.taming.change s t := by
  refine ⟨⟨hs.1.sameButTree same, hs.2.trans ?_⟩, trivial⟩
  have world := same.world
  rcases same with rfl | rfl
  · exact .refl _
  · exact ⟨rfl, congrArg World.tree world, rfl⟩

theorem evalAtom_taming {name : String} (h : IsTameAtom name) :
    Triple c.taming (Value.IsTameIn c.world) (evalAtom name) := by
  refine Primitive.triple_of_sameButTree taming_kept fun s hs => ?_
  obtain ⟨t, same, run⟩ := run_evalAtom name s
  have defined (v : Value) (hv : s.definition? name = some v) : v.IsTameIn s.world :=
    hs.1.definitions _ (Session.definition?_mem hv)
  have good := hs.1.sober.atomAnswer_spelled h.digits (fun _ _ => trivial) defined
  exact ⟨t, _, same, run, fun v hv => hs.2.isTameIn.1 (good v hv)⟩

theorem call_taming {p : Primitive} (apply : Function Value → List Value → Run Value)
    (hf : p ≠ .filter) (hm : p ≠ .map) (good : ∀ v ∈ arguments, v.IsTameIn c.world) :
    Triple c.taming (Value.IsTameIn c.world) (p.call apply arguments) := by
  refine Primitive.triple_call apply hf hm Value.isSpelled_void taming_kept (fun s hs v hv => ?_)
    fun _ s hs key name member => ?_
  · have good' (a : Value) (ha : a ∈ arguments) : a.IsTameIn s.world := hs.2.isTameIn.2 (good a ha)
    exact hs.2.isTameIn.1 (Primitive.answer_plain hs.1.sober.world p good' v hv)
  · obtain ⟨tame, alike⟩ := hs.1.putKinshipTerm key (Value.isSpelled_string.1 (good _ member))
    exact ⟨⟨tame, hs.2.trans alike⟩, trivial⟩

def tameConduct (c : Session) : Conduct where
  toDiscipline := c.taming
  term := Term.IsTameIn c.world
  value := Value.IsTameIn c.world
  value_of_term _ h := Term.obeys_value.1 h
  term_of_part _ h := Term.obeys_compound.1 h
  list_iff _ := Value.obeys_list
  atom _ h := evalAtom_taming (Term.obeys_atom.1 h)
  definition _ hs _ _ h :=
    hs.2.isTameIn.1 (hs.1.definitions _ (Session.definition?_mem h))
  function s hs name f _ h := by
    rw [hs.1.sober.function?] at h
    obtain ⟨p, -, rfl⟩ := Option.map_eq_some_iff.1 h
    exact Value.isSpelled_function.2 ⟨p, rfl, trivial⟩
  call _ apply _ hf hm _ good := call_taming apply hf hm good
  host _ _ h _ := by
    obtain ⟨p, hp, -⟩ := Value.isSpelled_function.1 h
    cases hp
  cached _ hs _ _ h := hs.2.isTameIn.1 (hs.1.remembered h)

/-! ### Evaluation -/

theorem apply_taming (depth : Nat) : ∀ (f : Function Value) (arguments : List Value),
    (Value.function f).IsTameIn c.world → (∀ v ∈ arguments, v.IsTameIn c.world) →
      Triple c.taming (Value.IsTameIn c.world) (apply depth f arguments) := by
  induction depth with
  | zero => exact fun _ _ _ _ => Triple.throw _
  | succ depth ih =>
    intro f arguments hf good
    obtain ⟨p, rfl, -⟩ := Value.isSpelled_function.1 hf
    refine (Triple.ofExcept (Q := fun _ => True) fun _ _ => trivial).bind fun _ _ => ?_
    exact (tameConduct c).callPrimitive ih hf good

/-- Plain terms are evaluated to their meaning, even if results are kept. -/
theorem eval_taming_of_plain {t : Term Value} (plain : t.IsPlainFor c)
    (deep : t.height + 3 ≤ depth) : Triple c.taming (Value.IsTameIn c.world) (eval depth t) := by
  rintro s ⟨tame, alike⟩
  have plain' := alike.plainFor.2 plain
  have yields (applied) (applies : Applies s.world applied) :=
    eval_yields tame.sober applies plain' deep s (tame.sound applied applies)
  obtain ⟨applied, applies⟩ := exists_applies tame.sober.world
  obtain ⟨result, sound⟩ := yields applied applies
  refine ⟨⟨tame.of_sound fun applied applies => (yields applied applies).2,
    alike.trans sound.alike⟩, trivial, fun v hv => alike.isTameIn.1 ?_⟩
  rw [result] at hv
  cases meaning : t.meaning s applied with
  | ok u =>
    rw [meaning] at hv
    cases hv
    exact (Term.meaning_plain tame.sober applies plain' _ meaning).tame
  | error failure =>
    rw [meaning] at hv
    cases hv

/-- A term that is not plain may keep whatever it comes to. -/
theorem remember_taming {parts : List (Term Value)} (tame : (Term.compound parts).IsTameIn c.world)
    (other : ¬ (Term.compound parts).IsPlainFor c) (hv : v.IsTameIn c.world) :
    Triple c.taming (fun _ => True) (remember (Term.compound parts).key v) := by
  refine Triple.modify fun s hs => ⟨?_, trivial⟩
  split
  · have tame' : (Term.compound parts).IsTameIn s.world := by
      rwa [Term.IsTameIn, Vocabulary.tame, hs.2.spelled]
    have kept := hs.1.put tame' (fun plain => other (hs.2.plainFor.1 plain)) (hs.2.isTameIn.2 hv)
    exact ⟨kept, hs.2.trans ⟨rfl, rfl, rfl⟩⟩
  · exact hs

/-- Evaluation to a sufficient depth keeps sessions tame. -/
theorem eval_taming {t : Term Value} (tame : t.IsTameIn c.world) (deep : t.height + 3 ≤ depth) :
    Triple c.taming (Value.IsTameIn c.world) (eval depth t) := by
  induction t using Term.induction generalizing depth with
  | atom name =>
    obtain ⟨depth, rfl⟩ : ∃ d, depth = d + 1 := ⟨depth - 1, by omega⟩
    exact (tameConduct c).atom name tame
  | value v =>
    obtain ⟨depth, rfl⟩ : ∃ d, depth = d + 1 := ⟨depth - 1, by omega⟩
    exact Triple.pure (Term.obeys_value.1 tame)
  | compound parts ih =>
    by_cases plain : (Term.compound parts).IsPlainFor c
    · exact eval_taming_of_plain plain deep
    · obtain ⟨depth, rfl⟩ : ∃ d, depth = d + 1 := ⟨depth - 1, by omega⟩
      rw [eval_compound]
      refine (tameConduct c).evalCompound (apply_taming depth) tame (fun part hpart => ?_)
        (fun special => absurd special (not_lambda tame)) fun v hv => remember_taming tame plain hv
      have below := Term.height_lt hpart
      exact ih part hpart (Term.obeys_compound.1 tame part hpart) (by omega)

/-! ### Queries -/

/-- The words of texts without lambdas, which may change the dictionary. -/
def Vocabulary.tameWords : Vocabulary where
  atom := IsTameWord
  leaf _ := True
  lambda := True

theorem Term.isTameIn_of_words {w : World} {t : Term Value} (words : t.Obeys .tameWords)
    (h : readQuery query = .ok t) : t.IsTameIn w :=
  words.of_readQuery h fun _ word isAtomText => ⟨word, isAtomText⟩

namespace Session
namespace Tame

theorem discard (hs : s.Tame) : (s.mapCache .discard).Tame :=
  hs.of_sound fun applied applies => (hs.sound applied applies).discard

theorem commit (hs : s.Tame) : (s.mapCache .commit).Tame :=
  hs.of_sound fun applied applies => (hs.sound applied applies).commit

theorem settle (hs : s.Tame) (h : s.task query = .ok task) (hv : v.IsTameIn s.world) :
    (task.settle v s).Tame := by
  have sober := hs.sober.settle h v
  have world := world_settle task v s
  refine ⟨sober, fun entry member => ?_, ?_, fun applied applies => ?_⟩
  · rw [world]
    rcases mem_settle member with rfl | member
    · exact hv
    · exact hs.definitions entry member
  · have same : (task.settle v s).dictionary = s.dictionary := congrArg World.dictionary world
    exact same ▸ hs.writable
  · rw [world] at applies
    exact (hs.sound applied applies).settle hs.sober applies h sober

/-- A query keeps a session tame, whether it succeeds or not. -/
theorem exec (hs : s.Tame) (words : ∀ t, readQuery query = .ok t → t.Obeys .tameWords)
    (deep : ∀ t, readQuery query = .ok t → t.height + 3 ≤ depth) : (s.exec depth query).2.Tame := by
  have evaluated {task : Task} (asked : s.task query = .ok task) := by
    have tame : task.term.IsTameIn s.world :=
      task_obeys (fun t ht => Term.isTameIn_of_words (words t ht) ht) hs.definitions asked
    have enough : task.term.height + 3 ≤ depth := by
      obtain ⟨t, ht, below⟩ := task_height_le asked
      have := deep t ht
      omega
    exact eval_taming (c := s.mapCache .discard) tame enough (s.mapCache .discard)
      ⟨hs.discard, .refl _⟩
  have executed := s.exec_executed depth query
  generalize s.exec depth query = result at executed
  cases executed with
  | refused failure _ => exact hs.discard.discard
  | failed task halt t asked run =>
    obtain ⟨⟨kept, -⟩, -⟩ := run ▸ evaluated asked
    exact kept.discard
  | answered task v t asked run =>
    obtain ⟨⟨kept, alike⟩, -, value⟩ := run ▸ evaluated asked
    have same : t.task query = .ok task := by
      rw [task_congr (kept.sober.hosts.trans hs.sober.hosts.symm) alike.definitions, asked]
    exact (kept.settle same (alike.isTameIn.2 (value v rfl))).commit

theorem execEach {queries : List String}
    (words : ∀ query ∈ queries, ∀ t, readQuery query = .ok t → t.Obeys .tameWords) :
    ∃ bound, ∀ depth, bound ≤ depth → ∀ s : Session, s.Tame → (execEach depth queries s).2.Tame := by
  induction queries with
  | nil => exact ⟨0, fun _ _ _ hs => hs⟩
  | cons query queries ih =>
    obtain ⟨first, rest⟩ := List.forall_mem_cons.1 words
    obtain ⟨bound, each⟩ := ih rest
    cases hread : readQuery query with
    | error failure =>
      refine ⟨bound, fun depth deep s hs => each depth deep _ (hs.exec first ?_)⟩
      rw [hread]
      exact fun _ h => by cases h
    | ok t =>
      refine ⟨max bound (t.height + 3), fun depth deep s hs => ?_⟩
      refine each depth (by omega) _ (hs.exec first ?_)
      rw [hread]
      rintro _ ⟨⟩
      omega

/-- What is kept for a plain term is what the term has now as its value. -/
theorem eval_eq_kept (hs : s.Tame) {entry : String × Value} (kept : entry ∈ s.cache.entries)
    {parts : List (Term Value)} (plain : (Term.compound parts).IsPlainFor s)
    (key : (Term.compound parts).key = entry.1) (deep : (Term.compound parts).height + 3 ≤ depth) :
    ((eval depth (.compound parts)).run (s.setCaching false)).1 = .ok entry.2 := by
  obtain ⟨applied, applies⟩ := exists_applies hs.sober.world
  have sound := hs.sound applied applies
  have direct : Sound s applied (s.setCaching false) := ⟨rfl, rfl, rfl, sound.entries, sound.pending⟩
  rw [(eval_yields hs.sober applies plain deep _ direct).1,
    (sound.entries entry kept).meaning parts plain key]
  rfl

end Tame

/-- After any queries without lambdas, whatever they add to the dictionary, each result that is
kept for a term that cannot reach `put-kinship-term` is what the term has now as its value. -/
theorem execEach_kept_current {people : List Profile} {bonds : List Bond} {genealogy : Genealogy}
    (accepted : Genealogy.make people bonds = .ok genealogy)
    (births : ∀ p ∈ people, p.birth.IsSpellable)
    (weddings : ∀ first second d, .marital first second d ∈ bonds → d.IsSpellable)
    (profiles : ∀ p ∈ people, ∀ field ∈ p.texts, Text.HasAsciiDigits field.2.toList)
    {dictionary : Dictionary} (made : dictionary.Made)
    (entries : ∀ entry ∈ dictionary.entries, Text.HasAsciiDigits entry.2.toList)
    (writable : dictionary.IsWritable) {today : Date} (spellable : today.IsSpellable)
    {queries : List String}
    (words : ∀ query ∈ queries, ∀ t, readQuery query = .ok t → t.Obeys .tameWords) :
    ∃ bound, ∀ depth, bound ≤ depth →
      let last := (execEach depth queries { genealogy, dictionary, today }).2
      ∀ entry ∈ last.cache.entries,
        (∃ parts, (Term.compound parts).IsTameIn last.world ∧ (Term.compound parts).key = entry.1) ∧
          ∀ parts, (Term.compound parts).IsPlainFor last → (Term.compound parts).key = entry.1 →
            ∀ depth, (Term.compound parts).height + 3 ≤ depth →
              ((eval depth (.compound parts)).run (last.setCaching false)).1 = .ok entry.2 := by
  let start : Session := { genealogy, dictionary, today }
  have world : start.world.IsPlain :=
    world_isPlain accepted births weddings profiles made entries spellable rfl rfl rfl
  have tame : start.Tame := ⟨⟨rfl, world, by simp [start]⟩, by simp [start], writable,
    fun _ _ => ⟨rfl, rfl, rfl, by simp [start], by simp [start]⟩⟩
  obtain ⟨bound, each⟩ := Tame.execEach words
  refine ⟨bound, fun depth deep entry kept => ?_⟩
  have last := each depth deep start tame
  obtain ⟨applied, applies⟩ := exists_applies last.sober.world
  refine ⟨((last.sound applied applies).entries entry kept).term, fun parts plain key depth deep => ?_⟩
  exact last.eval_eq_kept kept plain key deep

/-- A chain is shortened before and after it gets a name. What is kept at the end is the chain as
it is shortened then. -/
theorem execEach_kept_current_shorten :
    let birth : Date := ⟨1970, 1, 31, by decide, by decide, by decide, by decide⟩
    let ann : Profile := { id := 1, firstName := "Ann", lastName := "Lee", sex := .female, birth }
    let queries := ["(shorten (list 'mother' 'son'))", "(put-kinship-term 'mother,son' 'brother')",
      "(shorten (list 'mother' 'son'))"]
    let start : Session := { genealogy := { people := [ann] }, dictionary := {}, today := birth }
    Genealogy.make [ann] [] = .ok { people := [ann] } ∧
      ((execEach 4 queries start).2.cache.entries.lookup "(shorten (list 'mother' 'son'))").map
        Value.term = some "(list 'brother')" ∧
      ∃ bound, ∀ depth, bound ≤ depth →
        let last := (execEach depth queries start).2
        ∀ entry ∈ last.cache.entries,
          (∃ parts, (Term.compound parts).IsTameIn last.world ∧
            (Term.compound parts).key = entry.1) ∧
            ∀ parts, (Term.compound parts).IsPlainFor last → (Term.compound parts).key = entry.1 →
              ∀ depth, (Term.compound parts).height + 3 ≤ depth →
                ((eval depth (.compound parts)).run (last.setCaching false)).1 = .ok entry.2 := by
  intro birth ann queries start
  have accepted : Genealogy.make [ann] [] = .ok { people := [ann] } := by cbv
  have spellable : birth.IsSpellable := ⟨by decide, by decide⟩
  have atom : ∀ text ∈ ["shorten", "list", "'mother'", "'son'", "put-kinship-term", "'mother,son'",
      "'brother'"], (Term.atom text : Term Value).Obeys .tameWords := by
    have word : ∀ text ∈ ["shorten", "list", "'mother'", "'son'", "put-kinship-term",
        "'mother,son'", "'brother'"], IsTameWord text := by decide +kernel
    exact fun text member => Term.obeys_atom.2 (word text member)
  have first : readQuery "(shorten (list 'mother' 'son'))" = .ok (.compound [.atom "shorten",
      .compound [.atom "list", .atom "'mother'", .atom "'son'"]]) := rfl
  have second : readQuery "(put-kinship-term 'mother,son' 'brother')" = .ok (.compound
      [.atom "put-kinship-term", .atom "'mother,son'", .atom "'brother'"]) := rfl
  refine ⟨accepted, by decide +kernel,
    execEach_kept_current accepted ?_ ?_ ?_ (.empty none) ?_ ?_ spellable ?_⟩
  · simpa using spellable
  · simp
  · decide +kernel
  · simp
  · exact fun _ h => by cases h
  · intro query hquery t h
    simp only [queries, List.mem_cons, List.not_mem_nil, or_false] at hquery
    rcases hquery with rfl | rfl | rfl
    · rw [first] at h
      cases h
      simp [atom]
    · rw [second] at h
      cases h
      simp [atom]
    · rw [first] at h
      cases h
      simp [atom]

/-- An application that adds to the dictionary after it used it keeps what it came to before. -/
theorem exec_keeps_stale_result :
    let query := "(list (shorten (list 'a' 'b')) (put-kinship-term 'a,b' 'c'))"
    let s := (fresh.exec 5 query).2
    ∃ t, readQuery query = .ok t ∧
      (s.cache.entries.lookup t.key).map Value.term = some "(list (list 'a' 'b') void)" ∧
      ((eval 5 t).run (s.setCaching false)).1.map Value.term = .ok "(list (list 'c') void)" := by
  intro query s
  have read : readQuery "(list (shorten (list 'a' 'b')) (put-kinship-term 'a,b' 'c'))" =
      .ok (.compound [.atom "list",
      .compound [.atom "shorten", .compound [.atom "list", .atom "'a'", .atom "'b'"]],
      .compound [.atom "put-kinship-term", .atom "'a,b'", .atom "'c'"]]) := rfl
  refine ⟨_, read, ?_⟩
  simp only [s, query, exec_of_read read]
  constructor <;> decide +kernel

end Session
end KinQuery
