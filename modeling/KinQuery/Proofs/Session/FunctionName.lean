import KinQuery.Proofs.Lambda.Ledger

/-! What the names of functions tell.

Two functions are compared by their names alone. Whatever becomes of a session in which no
functions are registered, one ledger describes it and all the values that were got from it, and so
functions of one name are one function, wherever they occur. This holds while queries are
evaluated too, so that no primitive ever sees two functions of one name. -/
namespace KinQuery

variable {f g : Function Value} {v : Value} {held : List Value} {s t : Session} {L : Ledger}
  {query : String} {depth : Nat}

namespace Session

/-- The functions of a session and of the values that are held beside it: those that names stand
for, and those that occur in what is defined, kept or held. -/
inductive Mentions (s : Session) (held : List Value) : Function Value → Prop
  | function {name : String} {f : Function Value} : s.function? name = some f → Mentions s held f
  | definition {entry : String × Value} {f : Function Value} :
      entry ∈ s.definitions → f ∈ entry.2.allFunctions → Mentions s held f
  | entry {entry : String × Value} {f : Function Value} :
      entry ∈ s.cache.entries → f ∈ entry.2.allFunctions → Mentions s held f
  | pending {entry : String × Value} {f : Function Value} :
      entry ∈ s.cache.pending → f ∈ entry.2.allFunctions → Mentions s held f
  | held {v : Value} {f : Function Value} : v ∈ held → f ∈ v.allFunctions → Mentions s held f

/-- Functions of one name are one function: of one arity, with the same parameters and the same
body. -/
def NamesIdentify (s : Session) (held : List Value) : Prop :=
  ∀ f g, s.Mentions held f → s.Mentions held g → f.name = g.name → f = g

/-- The sessions that a program can come to that neither registers functions nor makes lambdas of
its own, and the values that it holds: those that were returned to it, and what it makes of the
functions that it has seen. Other sessions give away numbers of lambdas, too. -/
inductive Served : List Value → Session → Prop
  | start (genealogy : Genealogy) (dictionary : Dictionary) (today : Date) (lambdas : Nat) :
      Served [] { genealogy, dictionary, today, lambdas }
  | exec (depth : Nat) (query : String) {held : List Value} {s : Session} : Served held s →
      Served ((s.exec depth query).1.toOption.toList ++ held) (s.exec depth query).2
  | eval (depth : Nat) {t : Term Value} {held : List Value} {s : Session} :
      (∀ f ∈ t.allFunctions, s.Mentions held f) → Served held s →
        Served (((KinQuery.eval depth t).run s).1.toOption.toList ++ held)
          ((KinQuery.eval depth t).run s).2
  | apply (depth : Nat) {f : Function Value} {arguments held : List Value} {s : Session} :
      (∀ g ∈ (Value.function f).allFunctions, s.Mentions held g) →
        (∀ v ∈ arguments, ∀ g ∈ v.allFunctions, s.Mentions held g) → Served held s →
          Served (((KinQuery.apply depth f arguments).run s).1.toOption.toList ++ held)
            ((KinQuery.apply depth f arguments).run s).2
  | hold {v : Value} {held : List Value} {s : Session} :
      (∀ f ∈ v.allFunctions, s.Mentions held f) → Served held s → Served (v :: held) s
  | elsewhere {lambdas : Nat} {held : List Value} {s : Session} :
      s.lambdas ≤ lambdas → Served held s → Served held { s with lambdas }
  | setCaching (enabled : Bool) {held : List Value} {s : Session} :
      Served held s → Served held (s.setCaching enabled)
  | expunge {held : List Value} {s : Session} : Served held s → Served held s.expunge
  | tree {held : List Value} {s : Session} : Served held s → Served held s.tree.2
  | edit (change : Genealogy → Except Failure Genealogy) {held : List Value} {s t : Session} :
      s.edit change = .ok t → Served held s → Served held t
  | putKinshipTerm (key name : String) {held : List Value} {s : Session} :
      Served held s → Served held (s.putKinshipTerm key name).2

end Session

open Session (Mentions NamesIdentify Served)

/-! ### Sessions that a ledger describes -/

namespace Ledger.Describes

theorem records (describes : L.Describes s) (covers : ∀ v ∈ held, L.Covers v)
    (h : s.Mentions held f) : L.Records f := by
  have values := describes.values
  cases h with
  | function h =>
    exact values.function (fun p _ => covers_primitive p) h f (Value.mem_allFunctions_function f)
  | definition member within => exact values.definitions _ member f within
  | entry member within => exact values.entries _ member f within
  | pending member within => exact values.pending _ member f within
  | held member within => exact covers _ member f within

theorem namesIdentify (describes : L.Describes s) (covers : ∀ v ∈ held, L.Covers v) :
    s.NamesIdentify held :=
  fun _ _ hf hg => (describes.records covers hf).eq_of_name (describes.records covers hg)

theorem task (describes : L.Describes s) {task : Task} (asked : s.task query = .ok task) :
    ∀ f ∈ task.term.allFunctions, L.Records f := by
  obtain ⟨read, hread, rfl⟩ := Session.task_eq_ok asked
  obtain ⟨-, t, ht, term⟩ := Session.taskAsRead_eq_ok hread
  intro f hf
  -- what was read holds no functions, so each of them was put in place of a name
  have none : f ∉ t.allFunctions := Term.not_mem_allFunctions_of_readQuery ht
  rcases Term.mem_allFunctions_substitute hf with old | ⟨name, v, hv, new⟩
  · rcases term with same | ⟨parts, rfl, part⟩
    · exact absurd (same ▸ old) none
    · exact absurd (Term.mem_allFunctions_compound.2 ⟨_, part, old⟩) none
  · exact describes.values.definitions _ (Session.definition?_mem hv) f new

theorem settle (describes : L.Describes s) (hv : L.Covers v) (task : Task) :
    L.Describes (task.settle v s) := by
  refine describes.of_values ?_ (describes.values.settle hv task)
  unfold Task.settle
  split <;> rfl

theorem edit (describes : L.Describes s) {change : Genealogy → Except Failure Genealogy}
    (h : s.edit change = .ok t) : L.Describes t := by
  refine describes.of_values ?_ (describes.values.edit h)
  unfold Session.edit at h
  cases hg : change s.genealogy with
  | error failure =>
    rw [hg] at h
    cases h
  | ok genealogy =>
    rw [hg] at h
    cases h
    rfl

/-- A query is described by a ledger that continues the one before it, whether it succeeds or
fails. -/
theorem exec (describes : L.Describes s) (depth : Nat) (query : String) :
    ∃ L' : Ledger, L.Extends L' ∧ L'.Describes (s.exec depth query).2 ∧
      ∀ v, (s.exec depth query).1 = .ok v → L'.Covers v := by
  have start : L.Describes (s.mapCache .discard) := describes.of_values rfl describes.values.discard
  have evaluated {task : Task} (asked : s.task query = .ok task) :=
    ((contract.eval_and_apply Workings.own_agreesOn depth).1 L task.term
      (describes.task asked) _ start).2
  have executed := s.exec_executed depth query
  generalize s.exec depth query = result at executed
  cases executed with
  | refused failure _ =>
    exact ⟨L, .refl L, start.of_values rfl start.values.discard, fun v h => by cases h⟩
  | failed task halt t asked run =>
    obtain ⟨L', grown, still, -⟩ := run ▸ evaluated asked
    exact ⟨L', grown, still.of_values rfl still.values.discard, fun v h => by cases h⟩
  | answered task v t asked run =>
    obtain ⟨L', grown, still, value⟩ := run ▸ evaluated asked
    have settled := still.settle (value v rfl) task
    refine ⟨L', grown, settled.of_values rfl settled.values.commit, ?_⟩
    rintro _ ⟨⟩
    unfold Task.answer
    split
    · exact L'.isTransparent_covers.plain rfl
    · exact value v rfl

end Ledger.Describes

namespace Workings

/-- Workings by which `=` compares two functions by all that there is to them. -/
noncomputable def byIdentity : Workings where
  call apply p arguments :=
    match p, arguments with
    | .equal, [.function f, .function g] =>
      pure (.boolean (@decide (f = g) (Classical.propDecidable _)))
    | p, arguments => p.call apply arguments
  literal := readLiteral

theorem byIdentity_agreesOn : byIdentity.AgreesOn NamesIdentify where
  literal _ _ _ _ _ := rfl
  call apply p arguments s identify accepts := by
    clear accepts
    unfold byIdentity
    dsimp only
    split
    · rename_i f g
      have named : f.name = g.name ↔ f = g := by
        refine ⟨identify f g ?_ ?_, congrArg Function.name⟩
        · exact .held List.mem_cons_self (Value.mem_allFunctions_function f)
        · exact .held (List.mem_cons_of_mem _ List.mem_cons_self)
            (Value.mem_allFunctions_function g)
      change _ = (Except.ok (Value.boolean ((Value.function f).same (.function g))), s)
      simp [Value.same, named]
    · rfl

end Workings

namespace Session

/-- What was returned is held, beside what was held before. -/
theorem covers_returned {L L' : Ledger} {outcome : Except Halt Value} (grown : L.Extends L')
    (covers : ∀ v ∈ held, L.Covers v) (value : ∀ v, outcome = .ok v → L'.Covers v) :
    ∀ v ∈ outcome.toOption.toList ++ held, L'.Covers v := by
  intro v member
  rcases List.mem_append.1 member with returned | old
  · cases outcome with
    | error halt => cases returned
    | ok w =>
      obtain rfl := List.mem_singleton.1 returned
      exact value v rfl
  · exact grown.covers (covers v old)

/-- Some ledger describes the session and all that is held. -/
theorem Served.described (served : Served held s) :
    ∃ L : Ledger, L.Describes s ∧ ∀ v ∈ held, L.Covers v := by
  induction served with
  | start genealogy dictionary today lambdas =>
    exact ⟨fun _ => none, ⟨by simp, .of_empty rfl rfl rfl rfl rfl⟩, by simp⟩
  | exec depth query _ ih =>
    obtain ⟨L, describes, covers⟩ := ih
    obtain ⟨L', grown, still, value⟩ := describes.exec depth query
    exact ⟨L', still, covers_returned grown covers value⟩
  | eval depth known _ ih =>
    obtain ⟨L, describes, covers⟩ := ih
    have recorded := fun f hf => describes.records covers (known f hf)
    obtain ⟨-, L', grown, still, value⟩ :=
      (Ledger.contract.eval_and_apply Workings.own_agreesOn depth).1 L _ recorded _ describes
    exact ⟨L', still, covers_returned grown covers value⟩
  | apply depth known knownArguments _ ih =>
    obtain ⟨L, describes, covers⟩ := ih
    have recorded := fun f hf => describes.records covers (known f hf)
    have recorded' := fun v hv f hf => describes.records covers (knownArguments v hv f hf)
    obtain ⟨-, L', grown, still, value⟩ := (Ledger.contract.eval_and_apply Workings.own_agreesOn
      depth).2 L _ _ recorded recorded' _ describes
    exact ⟨L', still, covers_returned grown covers value⟩
  | hold known _ ih =>
    obtain ⟨L, describes, covers⟩ := ih
    have recorded := fun f hf => describes.records covers (known f hf)
    exact ⟨L, describes, List.forall_mem_cons.2 ⟨recorded, covers⟩⟩
  | elsewhere more _ ih =>
    obtain ⟨L, ⟨given, values⟩, covers⟩ := ih
    refine ⟨L, ⟨fun number entry h => Nat.le_trans (given number entry h) more, ?_⟩, covers⟩
    exact ⟨values.hosts, values.definitions, values.entries, values.pending, values.calls⟩
  | setCaching enabled _ ih =>
    obtain ⟨L, describes, covers⟩ := ih
    exact ⟨L, describes.of_values rfl (describes.values.setCaching enabled), covers⟩
  | expunge _ ih =>
    obtain ⟨L, describes, covers⟩ := ih
    exact ⟨L, describes.of_values rfl describes.values.expunge, covers⟩
  | tree _ ih =>
    obtain ⟨L, describes, covers⟩ := ih
    exact ⟨L, describes.of_values rfl (SameButTree.all (.inr rfl) describes.values), covers⟩
  | edit change accepted _ ih =>
    obtain ⟨L, describes, covers⟩ := ih
    exact ⟨L, describes.edit accepted, covers⟩
  | putKinshipTerm key name _ ih =>
    obtain ⟨L, describes, covers⟩ := ih
    refine ⟨L, describes.of_values ?_ (describes.values.putKinshipTerm key name), covers⟩
    rw [putKinshipTerm_eq]

/-- Functions of one name are one function, wherever they occur in a session or in the values that
were got from it, so that `=` takes two functions for the same only if they are. And no query would
be answered in another way if primitives did something else where two functions of one name occur
among their arguments or in the session. -/
theorem Served.names_identify (served : Served held s) :
    s.NamesIdentify held ∧
      (∀ f g, s.Mentions held f → s.Mentions held g →
        ((Value.function f).same (.function g) = true ↔ f = g)) ∧
      ∀ W : Workings, W.AgreesOn NamesIdentify →
        ∀ depth query, W.exec depth query s = s.exec depth query := by
  obtain ⟨L, describes, covers⟩ := served.described
  have identify := describes.namesIdentify covers
  refine ⟨identify, fun f g hf hg => ?_, fun W agrees depth query => ?_⟩
  · rw [Value.same, decide_eq_true_iff]
    exact ⟨identify f g hf hg, congrArg Function.name⟩
  · refine Workings.exec_eq fun task asked => ?_
    have start : L.Describes (s.mapCache .discard) :=
      describes.of_values rfl describes.values.discard
    -- the workings are asked at later stages, where an extended ledger identifies the names too
    have reached (u : Session) (arguments : List Value)
        (h : Ledger.contract.Reaches u arguments) : u.NamesIdentify arguments := by
      obtain ⟨L', holds, known⟩ := h
      have describes' : L'.Describes u := holds
      exact describes'.namesIdentify known
    exact ((Ledger.contract.eval_and_apply (agrees.mono reached) depth).1 L task.term
      (describes.task asked) _ start).1

/-- A lambda that is defined, returned, kept and embedded in another one. It is the one lambda of
its name, and `=` is answered as if functions were compared by all that there is to them. -/
theorem Served.names_identify_embedded :
    let k : Function Value := .lambda 1 ["y"] (.atom "x")
    let g : Function Value := .lambda 2 ["x"] (.compound [.value (.function k), .atom "x"])
    ∃ s, Served [.list [.function k, .function g], .void] s ∧
      s.definition? "k" = some (.function k) ∧
      s.cache.get? "(list (lambda (y) x) (lambda (x) ((lambda (y) x) x)))" =
        some (.list [.function k, .function g]) ∧
      k ∈ (Value.function g).allFunctions ∧
      s.NamesIdentify [.list [.function k, .function g], .void] ∧
      ((Value.function k).same (.function g) = true ↔ k = g) ∧
      Workings.byIdentity.AgreesOn NamesIdentify ∧
      (s.exec 5 "(= k k)").1.map Value.term = .ok "true" ∧
      (s.exec 5 "(= k (lambda (y) x))").1.map Value.term = .ok "false" ∧
      ∀ depth query, Workings.byIdentity.exec depth query s = s.exec depth query := by
  intro k g
  have define : readQuery "(define k (lambda (y) x))" = .ok (.compound [.atom "define", .atom "k",
      .compound [.atom "lambda", .compound [.atom "y"], .atom "x"]]) := rfl
  have listed : readQuery "(list k (lambda (x) (k x)))" = .ok (.compound [.atom "list", .atom "k",
      .compound [.atom "lambda", .compound [.atom "x"],
        .compound [.atom "k", .atom "x"]]]) := rfl
  have itself : readQuery "(= k k)" = .ok (.compound [.atom "=", .atom "k", .atom "k"]) := rfl
  have other : readQuery "(= k (lambda (y) x))" = .ok (.compound [.atom "=", .atom "k",
      .compound [.atom "lambda", .compound [.atom "y"], .atom "x"]]) := rfl
  let today : Date := ⟨2020, 6, 15, by decide, by decide, by decide, by decide⟩
  let run (query : String) (s : Session) : Session := (s.exec 5 query).2
  let s : Session := run "(list k (lambda (x) (k x)))" (run "(define k (lambda (y) x))" { today })
  have served : Served [.list [.function k, .function g], .void] s := by
    have both := Served.exec 5 "(list k (lambda (x) (k x)))"
      (.exec 5 "(define k (lambda (y) x))" (.start {} {} today 0))
    simp only [exec_of_read define, exec_of_read listed] at both
    simp only [s, run, exec_of_read define, exec_of_read listed]
    exact both
  have embedded : k ∈ (Value.function g).allFunctions :=
    Value.mem_allFunctions_lambda.2 (.inr (by simp [Term.allFunctions, Term.allFunctionsOf,
      Value.allFunctions, k]))
  have inList (f : Function Value) (hf : f ∈ (Value.function g).allFunctions) :
      s.Mentions [.list [.function k, .function g], .void] f :=
    .held List.mem_cons_self (Value.mem_allFunctions_list.2 ⟨.function g, by simp, hf⟩)
  obtain ⟨identify, same, agreed⟩ := served.names_identify
  have agrees := Workings.byIdentity_agreesOn
  refine ⟨s, served, ?_, ?_, embedded, identify,
    same k g (inList k embedded) (inList g (Value.mem_allFunctions_function g)), agrees, ?_, ?_,
    agreed _ agrees⟩
  · simp only [s, run, exec_of_read define, exec_of_read listed]
    rfl
  · simp only [s, run, exec_of_read define, exec_of_read listed]
    rfl
  · simp only [s, run, exec_of_read define, exec_of_read listed, exec_of_read itself]
    decide +kernel
  · simp only [s, run, exec_of_read define, exec_of_read listed, exec_of_read other]
    decide +kernel

end Session
end KinQuery
