import KinQuery.Proofs.Dictionary.Origin
import KinQuery.Proofs.Family.Accepted
import KinQuery.Proofs.Session.Sound

/-! Queries with and without caching.

A query is answered from what its session shows, not from what the cache happens to hold: two
sound sessions that show the same give the same answer and show the same afterwards. So a
sequence of queries has the same answers whether results are kept or not. -/
namespace KinQuery

variable {c s : Session} {applied : Function Value → List Value → Except Failure Value}
  {query : String} {task : Task} {v : Value}

namespace Session

/-! ### Tasks -/

theorem task_congr (hosts : s.hosts = c.hosts) (definitions : s.definitions = c.definitions)
    (query : String) : s.task query = c.task query := by
  have defined : s.definition? = c.definition? := by
    funext name
    rw [definition?, definition?, definitions]
  have functions : s.function? = c.function? := by
    funext name
    rw [function?, function?, hosts]
  simp only [Session.task, Session.taskAsRead, Session.taskOf, Session.definitionOf, checkUndefined,
    Session.bindings, defined, functions]

theorem Sound.task_eq (hs : Sound c applied s) (query : String) : s.task query = c.task query :=
  task_congr hs.hosts hs.definitions query

/-! ### Settling -/

theorem IsSober.settle (hc : c.IsSober) (h : c.task query = .ok task) (v : Value) :
    (task.settle v c).IsSober := by
  unfold Task.settle
  split
  · rename_i name named
    have new := task_isNew h
    have function := new.function name named
    rw [hc.function?, Option.map_eq_none_iff] at function
    exact ⟨hc.hosts, hc.world, List.forall_mem_cons.2
      ⟨⟨new.reference name named, new.keyword name named, function⟩, hc.names⟩⟩
  · exact hc

theorem mem_settle {entry : String × Value} (h : entry ∈ (task.settle v c).definitions) :
    entry.2 = v ∨ entry ∈ c.definitions := by
  unfold Task.settle at h
  split at h
  · rcases List.mem_cons.1 h with rfl | h
    · exact .inl rfl
    · exact .inr h
  · exact .inr h

theorem world_settle (task : Task) (v : Value) (c : Session) :
    (task.settle v c).world = c.world := by
  unfold Task.settle
  split <;> rfl

theorem IsPlain.settle (hc : c.IsPlain) (h : c.task query = .ok task)
    (hv : v.IsPlainIn c.world) : (task.settle v c).IsPlain := by
  have sober := hc.isSober.settle h v
  refine ⟨sober.hosts, sober.world, fun entry member => ?_, sober.names⟩
  rw [world_settle]
  rcases mem_settle member with rfl | member
  · exact hv
  · exact hc.definitions entry member

theorem extends_settle (h : c.task query = .ok task) (v : Value) : c.Extends (task.settle v c) := by
  refine ⟨world_settle task v c, fun name u hu => ?_⟩
  unfold Task.settle
  split
  · rename_i defined named
    have fresh := (task_isNew h).undefined defined named
    have other : name ≠ defined := by
      rintro rfl
      rw [fresh] at hu
      cases hu
    rw [definition?, Dictionary.lookup_cons_eq, if_neg other]
    exact hu
  · exact hu

theorem Sound.settle (hs : Sound c applied s) (hc : c.IsSober) (applies : Applies c.world applied)
    (h : c.task query = .ok task) (hc' : (task.settle v c).IsSober) :
    Sound (task.settle v c) applied (task.settle v s) := by
  have more := extends_settle h v
  have kept (entry : String × Value) (hentry : c.IsMeaning applied entry) :=
    hentry.of_extends hc hc' more applies
  refine ⟨?_, ?_, ?_, ?_, ?_⟩
  · unfold Task.settle
    split <;> exact hs.hosts
  · unfold Task.settle
    split
    · dsimp only
      rw [hs.definitions]
    · exact hs.definitions
  · rw [world_settle, world_settle, hs.world]
  · rw [Task.settle_cache]
    exact fun entry hentry => kept entry (hs.entries entry hentry)
  · rw [Task.settle_cache]
    exact fun entry hentry => kept entry (hs.pending entry hentry)

/-! ### Queries -/

/-- A query has one answer in all sound sessions that show the same, and they show the same
afterwards. -/
theorem exec_uniform (hc : c.IsPlain) (applies : Applies c.world applied)
    (plain : ∀ t, readQuery query = .ok t → t.IsPlainIn c.world) :
    ∃ (r : Except Failure Value) (c' : Session) (bound : Nat), c'.IsPlain ∧ c'.world = c.world ∧
      ∀ depth, bound ≤ depth → ∀ s, Sound c applied s →
        (s.exec depth query).1 = r.mapError .failed ∧ Sound c' applied (s.exec depth query).2 := by
  cases htask : c.task query with
  | error failure =>
    refine ⟨.error failure, c, 0, hc, rfl, fun depth _ s hs => ?_⟩
    rw [exec_eq, hs.task_eq, htask]
    exact ⟨rfl, hs.discard.discard⟩
  | ok task =>
    have hterm : task.term.IsPlainIn c.world := task_obeys plain hc.definitions htask
    have value := Term.meaning_plain hc.isSober applies (hc.plainFor hterm)
    have yields {depth : Nat} (deep : task.term.height + 3 ≤ depth) :=
      eval_yields hc.isSober applies (hc.plainFor hterm) deep
    cases meaning : task.term.meaning c applied with
    | error failure =>
      refine ⟨.error failure, c, task.term.height + 3, hc, rfl, fun depth deep s hs => ?_⟩
      obtain ⟨result, sound⟩ := yields deep _ hs.discard
      rw [exec_eq, hs.task_eq, htask, perform, performBy, Task.runBy]
      rcases hrun : (eval depth task.term).run (s.mapCache .discard) with ⟨q, t⟩
      rw [hrun] at result sound
      rw [meaning] at result
      cases result
      exact ⟨rfl, sound.discard⟩
    | ok v =>
      have hv := value v meaning
      refine ⟨.ok (task.answer v), task.settle v c, task.term.height + 3, hc.settle htask hv,
        world_settle task v c, fun depth deep s hs => ?_⟩
      obtain ⟨result, sound⟩ := yields deep _ hs.discard
      rw [exec_eq, hs.task_eq, htask, perform, performBy, Task.runBy]
      rcases hrun : (eval depth task.term).run (s.mapCache .discard) with ⟨q, t⟩
      rw [hrun] at result sound
      rw [meaning] at result
      cases result
      exact ⟨rfl, (sound.settle hc.isSober applies htask (hc.settle htask hv).isSober).commit⟩

/-- Runs queries one after the other, whether they fail or not, with the answer to each. -/
def execEach (depth : Nat) : List String → Session → List (Except Halt Value) × Session
  | [], s => ([], s)
  | query :: queries, s =>
    let (answer, s) := s.exec depth query
    let (answers, s) := execEach depth queries s
    (answer :: answers, s)

theorem execEach_uniform {queries : List String} (hc : c.IsPlain)
    (applies : Applies c.world applied)
    (plain : ∀ query ∈ queries, ∀ t, readQuery query = .ok t → t.IsPlainIn c.world) :
    ∃ (rs : List (Except Failure Value)) (c' : Session) (bound : Nat),
      ∀ depth, bound ≤ depth → ∀ s, Sound c applied s →
        (execEach depth queries s).1 = rs.map (·.mapError .failed) ∧
          Sound c' applied (execEach depth queries s).2 := by
  induction queries generalizing c with
  | nil => exact ⟨[], c, 0, fun depth _ s hs => ⟨rfl, hs⟩⟩
  | cons query queries ih =>
    obtain ⟨first, rest⟩ := List.forall_mem_cons.1 plain
    obtain ⟨r, c', bound, hc', world, once⟩ := exec_uniform hc applies first
    obtain ⟨rs, c'', bound', each⟩ := ih hc' (world ▸ applies) (world ▸ rest)
    refine ⟨r :: rs, c'', max bound bound', fun depth deep s hs => ?_⟩
    obtain ⟨answer, sound⟩ := once depth (by omega) s hs
    obtain ⟨answers, sound'⟩ := each depth (by omega) _ sound
    refine ⟨?_, sound'⟩
    rw [execEach, List.map_cons, ← answer, ← answers]

/-! ### Caching -/

section Accepted
variable {people : List Profile} {bonds : List Bond} {genealogy : Genealogy}
  (accepted : Genealogy.make people bonds = .ok genealogy) (hs : s.genealogy = genealogy)
include accepted hs

/-- The family tree of a session on an accepted genealogy shows what that was made from. -/
theorem world_shows : ∀ v ∈ s.world.tree.vertices, FamilyTree.Shows people bonds v := by
  obtain ⟨sound, rfl, rfl⟩ := Genealogy.make_eq_ok accepted
  have tree : s.world.tree = .build genealogy.people genealogy.bonds := by
    rw [Session.world, tree_fst_eq, hs, Genealogy.tree, sound.tree?]
  exact tree ▸ FamilyTree.each_build genealogy.people genealogy.bonds

theorem mem_of_holds {p : Profile} (hp : s.world.Holds p) : p ∈ people := by
  obtain ⟨v, hv, rfl⟩ := hp
  exact (world_shows accepted hs v hv).profile

theorem wedding_of_bonds {P : Date → Prop}
    (weddings : ∀ first second d, .marital first second d ∈ bonds → P d) :
    ∀ v ∈ s.world.tree.vertices, ∀ d, v.wedding = some d → P d := by
  intro v hv d hd
  obtain ⟨first, second, bond⟩ := (world_shows accepted hs v hv).wedding d hd
  exact weddings first second d bond

end Accepted

/-- What queries see of a session that starts on an accepted genealogy. -/
theorem world_isPlain {people : List Profile} {bonds : List Bond} {genealogy : Genealogy}
    (accepted : Genealogy.make people bonds = .ok genealogy)
    (births : ∀ p ∈ people, p.birth.IsSpellable)
    (weddings : ∀ first second d, .marital first second d ∈ bonds → d.IsSpellable)
    (profiles : ∀ p ∈ people, ∀ field ∈ p.texts, Text.HasAsciiDigits field.2.toList)
    {dictionary : Dictionary} (made : dictionary.Made)
    (entries : ∀ entry ∈ dictionary.entries, Text.HasAsciiDigits entry.2.toList)
    {today : Date} (spellable : today.IsSpellable) (hs : s.genealogy = genealogy)
    (hd : s.dictionary = dictionary) (ht : s.today = today) : s.world.IsPlain := by
  have person (p : Profile) (hp : s.world.Holds p) : p ∈ people := mem_of_holds accepted hs hp
  have wedding := wedding_of_bonds accepted hs weddings
  obtain ⟨sound, rfl, -⟩ := Genealogy.make_eq_ok accepted
  subst hd ht
  refine ⟨?_, ?_, fun p hp => births p (person p hp), wedding, ?_, spellable⟩
  · exact fun p q hp hq same => sound.unique p (person p hp) q (person q hq) same
  · exact fun p hp field hfield => ⟨sound.free p (person p hp) field hfield,
      profiles p (person p hp) field hfield⟩
  · intro chain name h
    obtain ⟨key, member, free⟩ := made.entry_of_get? h
    exact ⟨free, entries _ member⟩

end Session

/-- The words of texts without lambdas. -/
def Vocabulary.words : Vocabulary where
  atom := IsPlainWord
  leaf _ := True
  lambda := True

theorem Term.isPlainIn_of_words {w : World} {t : Term Value} (words : t.Obeys .words)
    (h : readQuery query = .ok t) : t.IsPlainIn w :=
  words.of_readQuery h fun _ word isAtomText => ⟨word, isAtomText⟩

namespace Session

/-- Queries without lambdas, additions to the dictionary and marks of persons have the same
answers and make the same definitions whether results are kept or not. -/
theorem execEach_setCaching {people : List Profile} {bonds : List Bond} {genealogy : Genealogy}
    (accepted : Genealogy.make people bonds = .ok genealogy)
    (births : ∀ p ∈ people, p.birth.IsSpellable)
    (weddings : ∀ first second d, .marital first second d ∈ bonds → d.IsSpellable)
    (profiles : ∀ p ∈ people, ∀ field ∈ p.texts, Text.HasAsciiDigits field.2.toList)
    {dictionary : Dictionary} (made : dictionary.Made)
    (entries : ∀ entry ∈ dictionary.entries, Text.HasAsciiDigits entry.2.toList)
    {today : Date} (spellable : today.IsSpellable) {queries : List String}
    (words : ∀ query ∈ queries, ∀ t, readQuery query = .ok t → t.Obeys .words) :
    ∃ bound, ∀ depth, bound ≤ depth →
      let start : Session := { genealogy, dictionary, today }
      let cached := execEach depth queries (start.setCaching true)
      let direct := execEach depth queries (start.setCaching false)
      cached.1 = direct.1 ∧ cached.2.definitions = direct.2.definitions ∧
        .error .tooDeep ∉ direct.1 := by
  let start : Session := { genealogy, dictionary, today }
  have world : start.world.IsPlain :=
    world_isPlain accepted births weddings profiles made entries spellable rfl rfl rfl
  have hc : start.IsPlain := ⟨rfl, world, by simp [start], by simp [start]⟩
  obtain ⟨applied, applies⟩ := exists_applies world
  have plain (query : String) (hquery : query ∈ queries) (t : Term Value)
      (h : readQuery query = .ok t) : t.IsPlainIn start.world :=
    Term.isPlainIn_of_words (words query hquery t h) h
  obtain ⟨rs, c', bound, uniform⟩ := execEach_uniform hc applies plain
  have sound (enabled : Bool) : Sound start applied (start.setCaching enabled) :=
    ⟨rfl, rfl, rfl, by simp [start, setCaching, mapCache], by simp [start, setCaching, mapCache]⟩
  refine ⟨bound, fun depth deep => ?_⟩
  obtain ⟨cached, sound'⟩ := uniform depth deep _ (sound true)
  obtain ⟨direct, sound''⟩ := uniform depth deep _ (sound false)
  refine ⟨cached.trans direct.symm, sound'.definitions.trans sound''.definitions.symm, ?_⟩
  rw [direct]
  intro h
  obtain ⟨r, -, hr⟩ := List.mem_map.1 h
  cases r <;> cases hr

theorem execEach_setCaching_define :
    let birth : Date := ⟨1970, 1, 31, by decide, by decide, by decide, by decide⟩
    let ann : Profile := { id := 1, firstName := "Ann", lastName := "Lee", sex := .female, birth }
    let dictionary : Dictionary :=
      { entries := [("mother,son", "brother")], chains := [(["mother", "son"], "brother")] }
    let queries := ["(define two (+ 1 1))", "(list two (+ 1 1))"]
    Genealogy.make [ann] [] = .ok { people := [ann] } ∧ dictionary.Made ∧
      ∃ bound, ∀ depth, bound ≤ depth →
        let start : Session := { genealogy := { people := [ann] }, dictionary, today := birth }
        let cached := execEach depth queries (start.setCaching true)
        let direct := execEach depth queries (start.setCaching false)
        cached.1 = direct.1 ∧ cached.2.definitions = direct.2.definitions ∧
          .error .tooDeep ∉ direct.1 := by
  intro birth ann dictionary queries
  have accepted : Genealogy.make [ann] [] = .ok { people := [ann] } := by cbv
  have made : dictionary.Made := .insert "mother,son" "brother" (.empty none) rfl
  have spellable : birth.IsSpellable := ⟨by decide, by decide⟩
  have word : ∀ text ∈ ["define", "two", "+", "1", "list"], IsPlainWord text := by
    decide +kernel
  have first : readQuery "(define two (+ 1 1))" = .ok (.compound [.atom "define", .atom "two",
      .compound [.atom "+", .atom "1", .atom "1"]]) := by cbv
  have second : readQuery "(list two (+ 1 1))" = .ok (.compound [.atom "list", .atom "two",
      .compound [.atom "+", .atom "1", .atom "1"]]) := by cbv
  have words (query : String) (hquery : query ∈ queries) (t : Term Value)
      (h : readQuery query = .ok t) : t.Obeys .words := by
    have atom (text : String) (htext : text ∈ ["define", "two", "+", "1", "list"]) :
        (Term.atom text).Obeys .words := Term.obeys_atom.2 (word text htext)
    rcases List.mem_cons.1 hquery with rfl | hquery
    · rw [first] at h
      cases h
      simp [atom]
    · obtain rfl := List.mem_singleton.1 hquery
      rw [second] at h
      cases h
      simp [atom]
  refine ⟨accepted, made, execEach_setCaching accepted ?_ ?_ ?_ made ?_ spellable words⟩
  · simpa using spellable
  · simp
  · decide +kernel
  · decide +kernel

end Session
end KinQuery
