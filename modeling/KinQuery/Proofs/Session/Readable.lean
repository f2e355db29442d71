import KinQuery.Proofs.Evaluation.LambdaParts
import KinQuery.Proofs.Function.Stock
import KinQuery.Proofs.Session.Caching
import KinQuery.Proofs.Session.Held
import KinQuery.Proofs.Session.Literal
import KinQuery.Proofs.Term.Grammar

/-! The strings and dates that queries return can be read back.

Strings come from literals, profiles and names of the dictionary, dates from literals, births,
weddings, the current day and from strings. If these are in a stock, then so is every value in a
session and every value that a query returns. No source holds a quote. But a profile is accepted
that holds a marker, and so is a name of the dictionary; and the dates of profiles and bonds may
lie in any year. -/
namespace KinQuery

open Run (Triple)

variable {k : Stock} {s t : Session} {v x : Value} {query : String} {term : Term Value}
  {depth : Nat}

/-! ### Queries -/

/-- The characters that queries may hold: quotes stand around literals only, and a query with a
marker is refused. -/
def Stock.Covers (k : Stock) (query : String) : Prop :=
  ∀ c ∈ query.toList, c ≠ Text.quote → c ≠ Text.marker → k.fits c

/-- What is read of a query is made of its characters and of spaces, and it holds no marker. -/
theorem readQuery_isFrom (covers : k.Covers query) (h : readQuery query = .ok term) :
    term.Obeys k.vocabulary := by
  unfold readQuery at h
  split at h
  · rename_i balanced
    have unmarked := Text.marker_not_mem_of_balancedFrom balanced
    split at h
    · rename_i read parsed
      cases h
      refine (Term.isBare_of_parse parsed).isSource.obeys fun text member c hc other => ?_
      have inside := (cuts_iff.2 (Term.cut_of_parse parsed)).subset_of_atom member hc
      rw [String.toList_ofList, Text.clip_of_isBalanced balanced] at inside
      rcases Text.mem_of_mem_tidy inside with inside | rfl
      · refine covers c inside other ?_
        rintro rfl
        exact unmarked inside
      · exact k.common ' ' (.inr (.inr (.inr rfl)))
    · cases h
  · cases h

namespace Session

theorem world_putKinshipTerm (s : Session) (key name : String) :
    (s.putKinshipTerm key name).2.world =
      ⟨s.world.tree, (s.dictionary.put key name).2, s.today⟩ := by
  rw [putKinshipTerm_eq]
  rfl

/-- All values are made of the stock, and so is the world that primitives see. -/
structure IsFrom (k : Stock) (s : Session) : Prop where
  world : s.world.IsFrom k
  values : s.All (Value.IsFrom k)

namespace IsFrom

theorem of_world (hs : s.IsFrom k) (same : t.world = s.world)
    (values : t.All (Value.IsFrom k)) : t.IsFrom k :=
  ⟨same ▸ hs.world, values⟩

theorem sameButTree (hs : s.IsFrom k) (same : s.SameButTree t) : t.IsFrom k :=
  hs.of_world same.world (same.all hs.values)

theorem function {name : String} {f : Function Value} (hs : s.IsFrom k)
    (hf : s.function? name = some f) : (Value.function f).IsFrom k :=
  hs.values.function (fun p _ => Value.isFrom_primitive p) hf

theorem atomAnswer {name : String} (hs : s.IsFrom k) (atom : k.vocabulary.atom name) :
    Gives (Value.IsFrom k) (atomAnswer s name) := by
  unfold KinQuery.atomAnswer
  split
  · exact literalAnswer_obeys hs.world.admits atom
  · split
    · rename_i f hf
      exact .ok (hs.function hf)
    · split
      · rename_i v hv
        exact .ok (hs.values.definitions _ (definition?_mem hv))
      · exact .error _

theorem putKinshipTerm (hs : s.IsFrom k) (key : String) {name : String}
    (good : (Value.string name).IsFrom k) : (s.putKinshipTerm key name).2.IsFrom k := by
  refine ⟨?_, hs.values.putKinshipTerm key name⟩
  rw [world_putKinshipTerm]
  refine ⟨hs.world.birth, hs.world.texts, hs.world.wedding, fun chain part found => ?_,
    hs.world.today⟩
  rcases Dictionary.get?_put found with rfl | old
  · intro c hc
    refine Value.isFrom_string.1 good c (Text.mem_of_mem_trim ?_)
    simpa [Text.trimmed] using hc
  · exact hs.world.names chain part old

end IsFrom
end Session

/-! ### Evaluation -/

/-- Evaluation may do what it likes to sessions that stay within the stock. -/
def Run.stocked (k : Stock) : Run.Discipline where
  holds s := s.IsFrom k
  change _ _ := True
  refl _ := trivial
  trans _ _ := trivial

theorem Run.stocked_kept (s t : Session) (hs : (stocked k).holds s) (same : s.SameButTree t) :
    (stocked k).holds t ∧ (stocked k).change s t :=
  ⟨Session.IsFrom.sameButTree hs same, trivial⟩

def stockContract (k : Stock) : Run.Contract where
  toDiscipline := Run.stocked k
  term := Term.Obeys k.vocabulary
  value := Value.IsFrom k
  value_of_term _ h := Term.obeys_value.1 h
  term_of_part _ h := Term.obeys_compound.1 h
  list_iff _ := Value.obeys_list
  atom name h := by
    refine Primitive.triple_of_sameButTree Run.stocked_kept fun s hs => ?_
    obtain ⟨t, same, run⟩ := run_evalAtom name s
    exact ⟨t, _, same, run, hs.atomAnswer (Term.obeys_atom.1 h)⟩
  definition _ hs _ _ h := hs.values.definitions _ (Session.definition?_mem h)
  function _ hs _ _ _ h := hs.function h
  cached _ hs _ _ h := hs.values.cached h
  lambda parts good := by
    have part (known : List String × Term Value) (h : lambdaParts parts = .ok known) :
        known.2.Obeys k.vocabulary :=
      Term.obeys_compound.1 good _ (mem_of_lambdaParts h)
    refine (Triple.ofExcept part).bind fun known hknown => ?_
    refine Triple.modifyGet fun s hs => ⟨?_, trivial, Value.obeys_lambda.2 ⟨trivial, hknown⟩⟩
    exact ⟨hs.world, hs.values.hosts, hs.values.definitions, hs.values.entries, hs.values.pending,
      hs.values.calls⟩
  remember key v hv := by
    refine Triple.modify fun s hs => ⟨?_, trivial⟩
    by_cases enabled : s.cache.enabled = true
    · rw [if_pos enabled]
      exact hs.of_world rfl (hs.values.put hv key)
    · rw [if_neg enabled]
      exact hs
  body _ _ _ _ hf good := hf.body good
  call p apply _ hf hm _ good :=
    Primitive.triple_call apply hf hm Value.isFrom_void Run.stocked_kept
      (fun _ hs => p.answer_obeys hs.world.admits good)
      fun _ _ hs key _ member => ⟨hs.putKinshipTerm key (good _ member), trivial⟩
  host _ _ hh _ := absurd hh Value.not_isFrom_host

theorem stockContract_outlasts (k : Stock) : (stockContract k).Outlasts where
  discard _ hs := Session.IsFrom.of_world hs rfl hs.values.discard
  commit _ hs := Session.IsFrom.of_world hs rfl hs.values.commit
  settle task v s hs hv :=
    Session.IsFrom.of_world hs (Session.world_settle task v s) (hs.values.settle hv task)
  void := @Value.isFrom_void k

namespace Session.IsFrom

theorem exec (hs : s.IsFrom k) (covers : k.Covers query) (depth : Nat) :
    (s.exec depth query).2.IsFrom k ∧ ∀ v, (s.exec depth query).1 = .ok v → v.IsFrom k :=
  (stockContract_outlasts k).exec hs (fun _ => task_obeys
    (fun _ => readQuery_isFrom covers) hs.values.definitions) depth

theorem execEach {queries : List String} (hs : s.IsFrom k)
    (covers : ∀ query ∈ queries, k.Covers query) (depth : Nat) :
    ∀ v, .ok v ∈ (execEach depth queries s).1 → v.IsFrom k := by
  induction queries generalizing s with
  | nil => simp [Session.execEach]
  | cons query queries ih =>
    obtain ⟨first, rest⟩ := List.forall_mem_cons.1 covers
    obtain ⟨still, value⟩ := hs.exec first depth
    intro v member
    rcases List.mem_cons.1 member with same | member
    · exact value v same.symm
    · exact ih still rest v member

end Session.IsFrom

/-! ### What stands inside of values -/

/-- A value stands inside of itself, and what is inside of an item is inside of the list. -/
inductive Value.Inside (x : Value) : Value → Prop
  | self : Inside x x
  | item {item : Value} {items : List Value} : item ∈ items → Inside x item → Inside x (.list items)

theorem Value.Obeys.inside {g : Vocabulary} (inside : x.Inside v) (h : v.Obeys g) : x.Obeys g := by
  induction inside with
  | self => exact h
  | item member _ ih => exact ih (Value.obeys_list.1 h _ member)

namespace Session

/-- What a session starts from is in the stock: the genealogy, the entries of the dictionary and
the current day. -/
structure Supplied (k : Stock) (people : List Profile) (bonds : List Bond)
    (dictionary : Dictionary) (today : Date) : Prop where
  birth : ∀ p ∈ people, k.dates p.birth
  texts : ∀ p ∈ people, ∀ field ∈ p.texts, ∀ c ∈ field.2.toList, k.fits c
  wedding : ∀ first second d, .marital first second d ∈ bonds → k.dates d
  names : ∀ entry ∈ dictionary.entries, ∀ c ∈ entry.2.toList, k.fits c
  today : k.dates today

section Accepted
variable {people : List Profile} {bonds : List Bond} {genealogy : Genealogy}
  {dictionary : Dictionary} {today : Date} {queries : List String}
  (accepted : Genealogy.make people bonds = .ok genealogy) (made : dictionary.Made)
include accepted made

/-- Genealogies and dictionaries accept no quotes. -/
theorem supplied_unquoted : Supplied .unquoted people bonds dictionary today := by
  obtain ⟨sound, rfl, -⟩ := Genealogy.make_eq_ok accepted
  refine ⟨fun _ _ => trivial, fun p hp field hfield c hc quoted => ?_, fun _ _ _ _ => trivial,
    fun entry member c hc quoted => ?_, trivial⟩
  · exact sound.free p hp field hfield (quoted ▸ hc)
  · have free : Text.quote ∉ entry.2.toList := by
      simpa [Dictionary.hasQuote] using made.named.free entry member
    exact free (quoted ▸ hc)

/-- A session that starts within the stock returns nothing else. -/
theorem execEach_isFrom (supplied : Supplied k people bonds dictionary today)
    (covers : ∀ query ∈ queries, k.Covers query) (enabled : Bool) (depth : Nat) :
    let start : Session := { genealogy, dictionary, today }
    ∀ v, .ok v ∈ (execEach depth queries (start.setCaching enabled)).1 → v.IsFrom k := by
  intro start
  have person (p : Profile) (hp : start.world.Holds p) : p ∈ people := mem_of_holds accepted rfl hp
  have wedding := wedding_of_bonds (s := start) accepted rfl supplied.wedding
  have names (chain : List String) (name : String) (h : dictionary.get? chain = some name) :
      ∀ c ∈ name.toList, k.fits c := by
    obtain ⟨key, member, -⟩ := made.entry_of_get? h
    exact supplied.names _ member
  have world : start.world.IsFrom k := ⟨fun p hp => supplied.birth p (person p hp),
    fun p hp => supplied.texts p (person p hp), wedding, names, supplied.today⟩
  have held : (start.setCaching enabled).IsFrom k := ⟨world, .of_empty rfl rfl rfl rfl rfl⟩
  exact held.execEach covers depth

end Accepted

/-- No string inside of a value that a query returns holds a quote. If no text of a profile and
no name of the dictionary holds a marker, then none of these strings does, and every session
reads them back. If births, weddings and the current day lie in the years that literals spell,
and no text holds a digit of another script, then so do the dates, and they are read back. -/
theorem execEach_readable {people : List Profile} {bonds : List Bond} {genealogy : Genealogy}
    (accepted : Genealogy.make people bonds = .ok genealogy) {dictionary : Dictionary}
    (made : dictionary.Made) {today : Date} {queries : List String} (enabled : Bool)
    (depth : Nat) :
    let start : Session := { genealogy, dictionary, today }
    ∀ answer, .ok answer ∈ (execEach depth queries (start.setCaching enabled)).1 →
      (∀ text, (Value.string text).Inside answer → Text.quote ∉ text.toList) ∧
      (Supplied .unmarked people bonds dictionary today →
        ∀ text, (Value.string text).Inside answer → Text.marker ∉ text.toList ∧
          ∀ t : Session, t.Lived → ∀ n,
            (t.exec (n + 1) (Value.string text).term).1 = .ok (.string text)) ∧
      (Supplied .spellable people bonds dictionary today →
        (∀ query ∈ queries, Text.HasAsciiDigits query.toList) →
        ∀ d, (Value.date d).Inside answer → 1000 ≤ d.year ∧ d.year ≤ 2999 ∧
          ∀ t : Session, t.Lived → ∀ n,
            (t.exec (n + 1) (Value.date d).term).1 = .ok (.date d)) := by
  intro start answer returned
  have unquoted : Supplied .unquoted people bonds dictionary today :=
    supplied_unquoted accepted made
  have free (text : String) (inside : (Value.string text).Inside answer) :
      Text.quote ∉ text.toList := by
    have value := execEach_isFrom accepted made unquoted (fun _ _ _ _ other _ => other) enabled
      depth answer returned
    exact fun quoted => Value.isFrom_string.1 (value.inside inside) _ quoted rfl
  refine ⟨free, fun supplied text inside => ?_, fun supplied digits d inside => ?_⟩
  · have value := execEach_isFrom accepted made supplied (fun _ _ _ _ _ other => other) enabled
      depth answer returned
    have unmarked : Text.marker ∉ text.toList :=
      fun marked => Value.isFrom_string.1 (value.inside inside) _ marked rfl
    exact ⟨unmarked, fun t lived n =>
      lived.isNamed.exec_word (.string (free text inside) unmarked) (free text inside) n⟩
  · have value := execEach_isFrom accepted made supplied
      (fun query member c hc _ _ => digits query member c hc) enabled depth answer returned
    obtain ⟨first, last⟩ := Value.isFrom_date.1 (value.inside inside)
    exact ⟨first, last, fun t lived n => lived.isNamed.exec_word (.date first last) ⟨first, last⟩ n⟩

/-- The current day and a text of a profile, in a list with a list. -/
theorem execEach_readable_attr :
    let birth : Date := ⟨1970, 1, 31, by decide, by decide, by decide, by decide⟩
    let ann : Profile :=
      { id := 1, firstName := "Ann", lastName := "Lee", sex := .female, birth,
        occupation := "doctor" }
    let dictionary : Dictionary :=
      { entries := [("mother,son", "brother")], chains := [(["mother", "son"], "brother")] }
    let start : Session := { genealogy := { people := [ann] }, dictionary, today := birth }
    let queries := ["(define p (head people))", "(list now (list (attr p 'occupation')))"]
    let answer : Value := .list [.date birth, .list [.string "doctor"]]
    Genealogy.make [ann] [] = .ok { people := [ann] } ∧ dictionary.Made ∧
      (execEach 9 queries (start.setCaching false)).1 = [.ok .void, .ok answer] ∧
      ∀ t : Session, t.Lived → ∀ n, (t.exec (n + 1) "'doctor'").1 = .ok (.string "doctor") ∧
        (t.exec (n + 1) "31.1.1970").1 = .ok (.date birth) := by
  intro birth ann dictionary start queries answer
  have accepted : Genealogy.make [ann] [] = .ok { people := [ann] } := by cbv
  have made : dictionary.Made := .insert "mother,son" "brother" (.empty none) rfl
  have spellable : birth.IsSpellable := ⟨by decide, by decide⟩
  have first : readQuery "(define p (head people))" = .ok (.compound [.atom "define", .atom "p",
      .compound [.atom "head", .atom "people"]]) := by cbv
  have second : readQuery "(list now (list (attr p 'occupation')))" =
      .ok (.compound [.atom "list", .atom "now", .compound [.atom "list",
        .compound [.atom "attr", .atom "p", .atom "'occupation'"]]]) := by cbv
  have answers : (execEach 9 queries (start.setCaching false)).1 = [.ok .void, .ok answer] := by
    simp only [queries, execEach, exec_of_read first, exec_of_read second]
    rfl
  have returned : .ok answer ∈ (execEach 9 queries (start.setCaching false)).1 := by
    rw [answers]
    exact List.mem_cons_of_mem _ List.mem_cons_self
  have free {text : String} (h : Text.marker ∉ text.toList) :
      ∀ c ∈ text.toList, Stock.unmarked.fits c := fun c hc same => h (same ▸ hc)
  have unmarked : Supplied .unmarked [ann] [] dictionary birth := by
    refine ⟨fun _ _ => trivial, ?_, fun _ _ _ _ => trivial, ?_, trivial⟩
    · simp only [List.forall_mem_singleton, ann, Profile.texts, List.forall_mem_cons]
      refine ⟨?_, ?_, ?_, ?_, ?_⟩ <;> exact free (by decide)
    · exact List.forall_mem_singleton.2 (free (by decide))
  have within : Supplied .spellable [ann] [] dictionary birth := by
    refine ⟨List.forall_mem_singleton.2 spellable, ?_, by simp, ?_, spellable⟩
    · change ∀ p ∈ [ann], ∀ field ∈ p.texts, Text.HasAsciiDigits field.2.toList
      decide +kernel
    · change ∀ entry ∈ dictionary.entries, Text.HasAsciiDigits entry.2.toList
      decide +kernel
  have digits : ∀ query ∈ queries, Text.HasAsciiDigits query.toList := by decide +kernel
  have string : (Value.string "doctor").Inside answer :=
    .item (List.mem_cons_of_mem _ List.mem_cons_self) (.item List.mem_cons_self .self)
  have date : (Value.date birth).Inside answer := .item List.mem_cons_self .self
  obtain ⟨-, strings, dates⟩ := execEach_readable accepted made false 9 answer returned
  obtain ⟨-, doctor⟩ := strings unmarked "doctor" string
  obtain ⟨-, -, day⟩ := dates within digits birth date
  have terms : (Value.string "doctor").term = "'doctor'" ∧
      (Value.date birth).term = "31.1.1970" := by decide +kernel
  rw [terms.1] at doctor
  rw [terms.2] at day
  exact ⟨accepted, made, answers, fun t lived n => ⟨doctor t lived n, day t lived n⟩⟩

/-- A profile is accepted with a marker for an occupation and a birth in the year 900. Queries
return both, and their terms cannot be read back. -/
theorem execEach_returns_marker :
    let birth : Date := ⟨900, 1, 31, by decide, by decide, by decide, by decide⟩
    let ann : Profile :=
      { id := 1, firstName := "Ann", lastName := "Lee", sex := .female, birth,
        occupation := "\x0f" }
    let today : Date := ⟨2020, 6, 15, by decide, by decide, by decide, by decide⟩
    let start : Session := { genealogy := { people := [ann] }, today }
    let queries := ["(attr (head people) 'occupation')", "(attr (head people) 'birth')",
      (Value.string "\x0f").term, (Value.date birth).term]
    Genealogy.make [ann] [] = .ok { people := [ann] } ∧
      (execEach 4 queries (start.setCaching false)).1 = [.ok (.string "\x0f"), .ok (.date birth),
        .error (.failed (.unbalancedQuery "'\x0f'")), .error (.failed (.unbound "31.1.900"))] := by
  intro birth ann today start queries
  have first : readQuery "(attr (head people) 'occupation')" = .ok (.compound [.atom "attr",
      .compound [.atom "head", .atom "people"], .atom "'occupation'"]) := by cbv
  have second : readQuery "(attr (head people) 'birth')" = .ok (.compound [.atom "attr",
      .compound [.atom "head", .atom "people"], .atom "'birth'"]) := by cbv
  have marked : readQuery "'\x0f'" = .error (.unbalancedQuery "'\x0f'") := by rfl
  have refused (s : Session) : s.exec 4 "'\x0f'" =
      (.error (.failed (.unbalancedQuery "'\x0f'")), s.mapCache .discard) := by
    rw [exec_eq, Session.task, taskAsRead, marked]
    rfl
  have last : readQuery "31.1.900" = .ok (.atom "31.1.900") := by cbv
  have terms : (Value.string "\x0f").term = "'\x0f'" ∧ (Value.date birth).term = "31.1.900" := by
    decide +kernel
  refine ⟨by cbv, ?_⟩
  simp only [queries, terms, execEach, exec_of_read first, exec_of_read second, refused,
    exec_of_read last]
  rfl

end Session
end KinQuery
