import KinQuery.Proofs.Caching.Backed
import KinQuery.Proofs.Session.Caching

/-! Queries where results are kept follow those where none are.

Two sessions go through the same queries. What is defined in one resembles what is defined in
the other, and every result that the second keeps is backed by the first. Where the first answers
a query or fails, the second does so as well, given enough depth. -/
namespace KinQuery

open List (Forall₂)

variable {C : Convention} {D E : List (String × Value)} {w : World} {K : Cache → Prop}
  {s s' r r' : Session} {query name : String} {t : Term Value} {v u : Value} {task : Task}

/-! ### Tasks -/

/-- The words of texts that tidy terms are read from. -/
def Vocabulary.tidyWords : Vocabulary where
  atom := IsTidyWord
  leaf _ := True
  lambda := True

theorem Term.isTidy_of_words (words : t.Obeys .tidyWords) (apart : t.KeepsApart C.isLocal [])
    (h : readQuery query = .ok t) : t.IsTidy C [] :=
  ⟨isFormed_of_readQuery h, words.of_readQuery h fun _ word _ => word, apart⟩

/-- Where a definition is tidy, so are the parts of it that are evaluated. -/
theorem Term.IsTidy.of_define {parts : List (Term Value)} (h : (compound parts).IsTidy C [])
    (define : parts.head? = some (.atom "define")) : ∀ part ∈ parts, part.IsTidy C [] := by
  obtain ⟨rest, rfl⟩ := List.head?_eq_some_iff.1 define
  have word : (Term.atom "define" : Term Value).KeepsApart C.isLocal [] :=
    .atom (by decide) fun here => absurd rfl ((C.opened _ here).ne_form .define)
  generalize same : "define" = text at h word
  refine List.forall_mem_cons.2 ⟨h.part (by simp) word, fun part member => ?_⟩
  have apart := h.apart
  refine h.part (List.mem_cons_of_mem _ member) ?_
  cases apart with
  | lambda _ _ _ => exact absurd same (by decide)
  | define first others =>
    cases rest with
    | nil => cases member
    | cons name rest =>
      rcases List.mem_cons.1 member with rfl | inside
      · exact first part rfl
      · exact others part inside
  | equal _ _ => exact absurd same (by decide)
  | parts notDefine _ _ => exact absurd (same ▸ rfl) notDefine

theorem Session.taskOf_isTidy (read : t.IsTidy C []) (h : s.taskOf t = .ok task) :
    task.term.IsTidy C [] := by
  unfold taskOf at h
  split at h
  · rename_i special
    exact read.of_define (Term.head_of_specialForm? special) _ (definitionOf_eq_ok h).2
  · obtain rfl := Except.ok.inj h
    exact read

theorem Session.taskAsRead_isTidy (tidy : ∀ t, readQuery query = .ok t → t.IsTidy C [])
    (h : s.taskAsRead query = .ok task) : task.term.IsTidy C [] := by
  unfold taskAsRead at h
  cases read : readQuery query with
  | error failure =>
    rw [read] at h
    cases h
  | ok t =>
    rw [read] at h
    exact taskOf_isTidy (tidy t read) h

/-! ### Sessions side by side -/

inductive Paired (C : Convention) (s r : Session) : Prop
  | intro {D E : List (String × Value)} (included : Included C D E)
      (names : ∀ name, D.lookup name = none → E.lookup name = none) :
      s.Shows C.world D (·.enabled = false) → r.Shows C.world E (Cache.IsBacked C D) → Paired C s r

namespace Session.Shows

theorem mapCache (h : s.Shows w D K) {f : Cache → Cache} (kept : ∀ c, K c → K (f c)) :
    (s.mapCache f).Shows w D K :=
  ⟨h.hosts, h.world, h.definitions, kept _ h.cache⟩

theorem define (h : s.Shows w D K) {K' : Cache → Prop} (weaker : ∀ c, K c → K' c) (name : String)
    (v : Value) :
    Shows w ((name, v) :: D) K' { s with definitions := (name, v) :: s.definitions } :=
  ⟨h.hosts, h.world, congrArg _ h.definitions, weaker _ h.cache⟩

end Session.Shows

namespace Paired

theorem mapCache (h : Paired C s r) {f g : Cache → Cache} (off : ∀ c, (f c).enabled = c.enabled)
    (kept : ∀ D c, Cache.IsBacked C D c → Cache.IsBacked C D (g c)) :
    Paired C (s.mapCache f) (r.mapCache g) := by
  obtain ⟨included, names, first, second⟩ := h
  exact ⟨included, names, first.mapCache fun c h => (off c).trans h, second.mapCache (kept _)⟩

theorem isSome_definition? (h : Paired C s r) (name : String) :
    (r.definition? name).isSome = (s.definition? name).isSome := by
  obtain ⟨included, names, first, second⟩ := h
  rename_i D E
  rw [first.definition?, second.definition?]
  cases found : D.lookup name with
  | none => rw [names name found]
  | some v =>
    obtain ⟨u, found', -⟩ := included.values name v found
    rw [found']
    rfl

/-- The same is read in both sessions. -/
theorem taskAsRead (h : Paired C s r) (query : String) :
    r.taskAsRead query = s.taskAsRead query := by
  have functions : r.function? = s.function? := by
    obtain ⟨-, -, first, second⟩ := h
    funext name
    rw [first.function?, second.function?]
  have undefined (name : String) : checkUndefined r name = checkUndefined s name := by
    rw [checkUndefined, checkUndefined, functions, h.isSome_definition?]
  unfold Session.taskAsRead Session.taskOf Session.definitionOf
  simp only [undefined]

end Paired

/-- Definitions that resemble each other in place of names. -/
theorem Included.substitute (h : Included C D E)
    (names : ∀ name, D.lookup name = none → E.lookup name = none) (tidy : t.IsTidy C []) :
    (t.substitute fun name => D.lookup name).Resembles C
      (t.substitute fun name => E.lookup name) := by
  have related (name : String) : (D.lookup name = none ∧ E.lookup name = none) ∨
      ∃ v u, D.lookup name = some v ∧ E.lookup name = some u ∧ v.Resembles C u := by
    cases found : D.lookup name with
    | none => exact .inl ⟨rfl, names name found⟩
    | some v =>
      obtain ⟨u, found', resembles⟩ := h.values name v found
      exact .inr ⟨v, u, rfl, found', resembles⟩
  have opened : Bindings.AreOpen fun name => D.lookup name := fun name v found =>
    h.opened _ (List.mem_append_left _ (Bindings.mem_of_ofList found))
  have opened' : Bindings.AreOpen fun name => E.lookup name := fun name v found =>
    h.opened _ (List.mem_append_right _ (Bindings.mem_of_ofList found))
  refine ⟨tidy.substitute opened (fun name v found => ?_) (by simp),
    tidy.substitute opened' (fun name u found => ?_) (by simp),
    Term.expand_substitute_congr fun name => ?_⟩
  · rcases related name with ⟨none, -⟩ | ⟨v', u, some, -, resembles⟩
    · rw [found] at none
      cases none
    · rw [found] at some
      cases some
      exact resembles.left
  · rcases related name with ⟨-, none⟩ | ⟨v, u', -, some, resembles⟩
    · rw [found] at none
      cases none
    · rw [found] at some
      cases some
      exact resembles.right
  · rcases related name with ⟨none, none'⟩ | ⟨v, u, some, some', resembles⟩
    · rw [none, none']
    · rw [some, some', Option.map_some, Option.map_some, resembles.expand]

/-! ### Queries -/

/-- Values that resemble each other, or failures of one class. -/
inductive Accords (C : Convention) : Except Halt Value → Except Halt Value → Prop
  | ok {v u : Value} : v.Resembles C u → Accords C (.ok v) (.ok u)
  | failed {f g : Failure} : f.failureClass = g.failureClass →
      Accords C (.error (.failed f)) (.error (.failed g))

theorem Accords.answer (h : v.Resembles C u) (task : Task) :
    Accords C (.ok (task.answer v)) (.ok (task.answer u)) := by
  unfold Task.answer
  split
  · exact .ok (.refl .void)
  · exact .ok h

/-- A name that is defined in both sessions. -/
theorem Paired.settle (included : Included C D E)
    (names : ∀ name, D.lookup name = none → E.lookup name = none)
    (hs : s.Shows C.world D (·.enabled = false)) (hr : r.Shows C.world E (Cache.IsBacked C D))
    (opened : ∀ name, task.name? = some name → IsOpen name ∧ D.lookup name = none)
    (h : v.Resembles C u) : Paired C (task.settle v s) (task.settle u r) := by
  unfold Task.settle
  split
  · rename_i name named
    obtain ⟨isOpen, new⟩ := opened name named
    refine ⟨included.define isOpen h, fun other none => ?_, hs.define (fun _ => id) name v,
      hr.define (fun c backed => backed.widen new isOpen v) name u⟩
    rw [Dictionary.lookup_cons_eq] at none ⊢
    split at none
    · cases none
    · rw [if_neg ‹_›]
      exact names other none
  · exact ⟨included, names, hs, hr⟩

theorem Session.Shows.bindings (h : s.Shows w D K) : s.bindings = fun name => D.lookup name :=
  funext h.definition?

theorem Session.Shows.isOpen (h : s.Shows w D K) (new : task.IsNew s)
    (named : task.name? = some name) : IsOpen name ∧ D.lookup name = none := by
  have function := new.function name named
  have undefined := new.undefined name named
  rw [h.function?, Option.map_eq_none_iff] at function
  rw [h.definition?] at undefined
  exact ⟨⟨⟨new.reference name named, new.keyword name named⟩, function⟩, undefined⟩

/-- A task ends in both sessions if it does in the first. -/
theorem Paired.run (h : Paired C s r) (new : task.IsNew s) (tidy : task.term.IsTidy C [])
    {depth : Nat} (ended : ((task.substitute s.bindings).run depth s).1 ≠ .error .tooDeep) :
    ∃ answer r' bound,
      (∀ deeper, bound ≤ deeper → (task.substitute r.bindings).run deeper r = (answer, r')) ∧
        Accords C ((task.substitute s.bindings).run depth s).1 answer ∧
          Paired C ((task.substitute s.bindings).run depth s).2 r' := by
  obtain ⟨included, names, first, second⟩ := h
  have resembles := included.substitute names tidy
  rw [← first.bindings, ← second.bindings] at resembles
  have answers := Comparison.answers_of_backed included names
  have met := (Comparison.eval_tracks answers depth).1 _ _ resembles s r first second
  unfold Task.run Task.runBy at ended ⊢
  dsimp only [Task.substitute] at ended ⊢
  generalize (eval depth (task.term.substitute s.bindings)).run s = x at met ended
  cases met with
  | @ok v u s' _ r' _ agree first' second' ends =>
    obtain ⟨bound, ends⟩ := ends
    have settled : Paired C (task.settle v s') (task.settle u r') :=
      .settle included names first' second' (fun name named => first.isOpen new named) agree.1
    refine ⟨.ok (task.answer u), task.settle u r', bound, fun deeper deep => ?_,
      .answer agree.1 task, settled⟩
    rw [ends deeper deep]
    rfl
  | @failed f g s' _ r' _ same first' second' ends =>
    obtain ⟨bound, ends⟩ := ends
    exact ⟨_, _, bound, fun deeper deep => by rw [ends deeper deep], .failed same,
      ⟨included, names, first', second'⟩⟩
  | loose _ notStrict => exact absurd trivial notStrict
  | deep _ => exact absurd rfl ended

theorem Paired.closed {x : Except Halt Value × Session} {answer : Except Halt Value}
    (accords : Accords C x.1 answer) (h : Paired C x.2 r) :
    Accords C (Session.closed x).1 (Session.closed (answer, r)).1 ∧
      Paired C (Session.closed x).2 (Session.closed (answer, r)).2 := by
  obtain ⟨y, s⟩ := x
  cases accords with
  | ok resembles =>
    exact ⟨.ok resembles, h.mapCache (fun _ => rfl) fun _ _ => Cache.IsBacked.commit⟩
  | failed same => exact ⟨.failed same, h.mapCache (fun _ => rfl) fun _ _ => Cache.IsBacked.discard⟩

/-- A query ends in both sessions if it does in the first. -/
theorem Paired.exec (h : Paired C s r) {depth : Nat}
    (tidy : ∀ t, readQuery query = .ok t → t.IsTidy C [])
    (ended : (s.exec depth query).1 ≠ .error .tooDeep) :
    ∃ answer r' bound, (∀ deeper, bound ≤ deeper → r.exec deeper query = (answer, r')) ∧
      Accords C (s.exec depth query).1 answer ∧ Paired C (s.exec depth query).2 r' := by
  have start : Paired C (s.mapCache .discard) (r.mapCache .discard) :=
    h.mapCache (fun _ => rfl) fun _ _ => Cache.IsBacked.discard
  simp only [Session.exec_eq, Session.task, h.taskAsRead] at ended ⊢
  cases read : s.taskAsRead query with
  | error failure =>
    obtain ⟨accords, paired⟩ := start.closed (x := (.error (.failed failure), _)) (.failed rfl)
    exact ⟨_, _, 0, fun _ _ => rfl, accords, paired⟩
  | ok task =>
    rw [read] at ended
    have new : task.IsNew (s.mapCache .discard) := by
      obtain ⟨new, -⟩ := Session.taskAsRead_eq_ok (s := s.mapCache .discard) read
      exact new
    have ended' : ((task.substitute s.bindings).run depth (s.mapCache .discard)).1 ≠
        .error .tooDeep := by
      intro deep
      refine ended ?_
      change (Session.closed ((task.substitute s.bindings).run depth _)).1 = _
      rcases hx : (task.substitute s.bindings).run depth (s.mapCache .discard) with ⟨_ | v, t⟩
      · rw [hx] at deep
        exact deep
      · rw [hx] at deep
        cases deep
    obtain ⟨answer, r', bound, ends, accords, paired⟩ :=
      start.run new (Session.taskAsRead_isTidy tidy read) ended'
    obtain ⟨accords', paired'⟩ := paired.closed accords
    refine ⟨_, _, bound, fun deeper deep => ?_, accords', paired'⟩
    exact congrArg Session.closed (ends deeper deep)

theorem Paired.execEach {queries : List String} (h : Paired C s r) {depth : Nat}
    (tidy : ∀ query ∈ queries, ∀ t, readQuery query = .ok t → t.IsTidy C [])
    (ended : .error .tooDeep ∉ (s.execEach depth queries).1) :
    ∃ bound, ∀ deeper, bound ≤ deeper →
      Forall₂ (Accords C) (s.execEach depth queries).1 (r.execEach deeper queries).1 := by
  induction queries generalizing s r with
  | nil => exact ⟨0, fun _ _ => .nil⟩
  | cons query queries ih =>
    simp only [Session.execEach, List.mem_cons, not_or] at ended ⊢
    obtain ⟨now, later⟩ := List.forall_mem_cons.1 tidy
    obtain ⟨answer, r', bound, ends, accords, paired⟩ := h.exec now fun deep => ended.1 deep.symm
    -- The bound for the first query is found in this session, that for the others in the next.
    obtain ⟨bound', rest⟩ := ih paired later ended.2
    refine ⟨max bound bound', fun deeper deep => ?_⟩
    rw [ends deeper (by omega)]
    exact .cons accords (rest deeper (by omega))

end KinQuery
