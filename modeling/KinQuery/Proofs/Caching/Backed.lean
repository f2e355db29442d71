import KinQuery.Proofs.Caching.Evaluation
import KinQuery.Proofs.Session.Sound

/-! Results that are kept, each backed by an evaluation that keeps none.

A result is found under a key. The term that it was kept for has this key, so it is written like
the term that is evaluated now. Evaluations of the two, neither of which keeps results, come to
values that resemble each other. -/
namespace KinQuery

variable {C : Convention} {X : Comparison C} {D D' E : List (String × Value)} {s r : Session}
  {key name : String} {v u : Value} {t : Term Value} {c : Cache}

namespace Included

theorem self (h : Included C D E) : Included C D D where
  opened entry member := h.opened entry (List.mem_append_left _ (by simpa using member))
  values name v found := by
    obtain ⟨u, -, resembles⟩ := h.values name v found
    exact ⟨v, found, .refl resembles.left⟩

/-- New names on the right do no harm. -/
theorem widen (h : Included C D E) (new : E.lookup name = none) (opened : IsOpen name) :
    Included C D ((name, v) :: E) where
  opened entry member := by
    rcases List.mem_append.1 member with old | new
    · exact h.opened entry (List.mem_append_left _ old)
    · rcases List.mem_cons.1 new with rfl | old
      · exact opened
      · exact h.opened entry (List.mem_append_right _ old)
  values other u found := by
    obtain ⟨x, found', resembles⟩ := h.values other u found
    have apart : other ≠ name := by
      rintro rfl
      rw [new] at found'
      cases found'
    exact ⟨x, by rw [Dictionary.lookup_cons_eq, if_neg apart, found'], resembles⟩

/-- A definition that is made on both sides. -/
theorem define (h : Included C D E) (opened : IsOpen name) (resembles : v.Resembles C u) :
    Included C ((name, v) :: D) ((name, u) :: E) where
  opened entry member := by
    simp only [List.cons_append, List.mem_cons, List.mem_append] at member
    rcases member with rfl | old | rfl | old
    · exact opened
    · exact h.opened entry (List.mem_append_left _ old)
    · exact opened
    · exact h.opened entry (List.mem_append_right _ old)
  values other x found := by
    rw [Dictionary.lookup_cons_eq] at found ⊢
    split at found
    · cases found
      exact ⟨u, by rw [if_pos ‹_›], resembles⟩
    · rw [if_neg ‹_›]
      exact h.values other x found

end Included

/-! ### Sessions that keep no results -/

namespace Comparison

theorem answers_of_uncached (off : ∀ c, X.kept c → c.enabled = false) : X.Answers := by
  intro m t head arguments h s r hs hr met
  exact met.congr 0 fun depth _ => Run.run_evalApplication_uncached (off _ hr.cache)

/-- Two sessions that keep no results, the second with more definitions perhaps. -/
def wider (included : Included C D E) : Comparison C where
  first := D
  second := E
  kept := (·.enabled = false)
  strict := False
  included
  names := False.elim

/-- A session that keeps no results, and itself. -/
def itself (included : Included C D D) : Comparison C where
  first := D
  second := D
  kept := (·.enabled = false)
  strict := True
  included
  names _ _ := id

end Comparison

/-! ### Results that are kept -/

/-- The value resembles one to which a term of this key comes where no results are kept. -/
inductive Backed (C : Convention) (D : List (String × Value)) (key : String) (v : Value) : Prop
  | intro {D₀ : List (String × Value)} {s s' : Session} {m : Nat} {t : Term Value}
      {parts : List (Term Value)} {v₀ : Value} : Included C D₀ D →
      s.Shows C.world D₀ (·.enabled = false) → t.IsTidy C [] → t.expand = .compound parts →
        t.key = key → (eval m t).run s = (.ok v₀, s') → v₀.Resembles C v → Backed C D key v

def Cache.IsBacked (C : Convention) (D : List (String × Value)) (c : Cache) : Prop :=
  (∀ entry ∈ c.entries, Backed C D entry.1 entry.2) ∧
    ∀ entry ∈ c.pending, Backed C D entry.1 entry.2

namespace Cache.IsBacked

theorem get? (h : c.IsBacked C D) (found : c.get? key = some v) : Backed C D key v := by
  exact (mem_of_get? found).elim (h.1 _) (h.2 _)

theorem put (h : c.IsBacked C D) (backed : Backed C D key v) : (c.put key v).IsBacked C D := by
  refine ⟨by simpa using h.1, fun entry member => ?_⟩
  rcases mem_put_pending member with rfl | member
  · exact backed
  · exact h.2 entry member

theorem discard (h : c.IsBacked C D) : c.discard.IsBacked C D :=
  ⟨h.1, by simp [Cache.discard]⟩

theorem commit (h : c.IsBacked C D) : c.commit.IsBacked C D := by
  refine ⟨fun entry member => ?_, by simp [Cache.commit]⟩
  exact (mem_commit member).elim (h.2 entry) (h.1 entry)

theorem widen (h : c.IsBacked C D) (new : D.lookup name = none) (opened : IsOpen name) (v : Value) :
    c.IsBacked C ((name, v) :: D) := by
  have widen {key : String} {u : Value} (backed : Backed C D key u) :
      Backed C ((name, v) :: D) key u := by
    obtain ⟨included, shows, tidy, written, same, run, resembles⟩ := backed
    exact ⟨included.widen new opened, shows, tidy, written, same, run, resembles⟩
  exact ⟨fun entry member => widen (h.1 entry member), fun entry member => widen (h.2 entry member)⟩

end Cache.IsBacked

namespace Comparison

/-- A session that keeps no results, and one that has the same names and may keep results. -/
def caching (included : Included C D E)
    (names : ∀ name, D.lookup name = none → E.lookup name = none) : Comparison C where
  first := D
  second := E
  kept := Cache.IsBacked C D
  strict := True
  included
  names _ := names

/-- What was kept resembles what the evaluation would come to. -/
theorem hit_met {m : Nat} {n : Nat → Run Value} (hs : X.First s) (hr : X.Second r)
    (tidy : t.IsTidy C []) (backed : Backed C X.first t.key v)
    (ends : ∀ depth, (n depth).run r = (.ok v, r)) :
    X.Met (Value.Resembles C) ((eval m t).run s) n r := by
  obtain ⟨included, shows, tidy', -, same, run, resembles⟩ := backed
  rename_i D₀ s₀ s₀' m₀ t₀ parts₀ v₀
  have alike : t₀.Resembles C t := ⟨tidy', tidy,
    Term.expand_eq_of_key_eq tidy'.isBare tidy.isBare same⟩
  -- The term that the result was kept for, in a session with fewer names, and the term that is
  -- evaluated now are both compared with evaluating the latter, so the two values agree.
  have before := (eval_tracks (X := wider included) (answers_of_uncached fun _ => id) m₀).1
    t₀ t alike s₀ s shows hs
  have now := (eval_tracks (X := itself X.included.self) (answers_of_uncached fun _ => id) m).1 t t
    (.refl tidy) s s hs hs
  rw [run] at before
  generalize (eval m t).run s = x at now
  cases before with
  | ok agree _ _ ends' =>
    cases now with
    | ok agree' hs' _ ends'' =>
      cases ends'.unique ends''
      exact .ok (agree'.1.trans (agree.1.symm.trans resembles)) hs' hr (.always ends)
    | failed _ _ _ ends'' => cases ends'.unique ends''
    | loose _ notStrict => exact absurd trivial notStrict
    | deep _ => exact .deep _

end Comparison

/-- The session after a result was kept, if caching is on. -/
def Session.withResult (key : String) (v : Value) (s : Session) : Session :=
  if s.cache.enabled then s.mapCache (·.put key v) else s

theorem run_remember (key : String) (v : Value) (s : Session) :
    (do
      remember key v
      return v : Run Value).run s = (.ok v, s.withResult key v) :=
  rfl

theorem Session.Shows.withResult {w : World} {K : Cache → Prop} (h : s.Shows w D K)
    (put : ∀ c, K c → K (c.put key v)) : (s.withResult key v).Shows w D K := by
  unfold Session.withResult
  split
  · exact ⟨h.hosts, h.world, h.definitions, put _ h.cache⟩
  · exact h

namespace Comparison

/-- Backed results answer for evaluations. -/
theorem answers_of_backed (included : Included C D E)
    (names : ∀ name, D.lookup name = none → E.lookup name = none) :
    (caching included names).Answers := by
  intro m t head arguments h s r hs hr met
  have written : t.expand = .compound ((head :: arguments).map Term.expand) := by
    rw [h.expand, Term.expand_compound]
  have key : t.key = (Term.compound (head :: arguments)).key := by
    rw [← Term.key_expand t, h.expand, Term.key_expand]
  cases enabled : r.cache.enabled with
  | true =>
    cases found : r.cache.get? (Term.compound (head :: arguments)).key with
    | some v =>
      have backed : Backed C D t.key v := key ▸ hr.cache.get? found
      exact hit_met hs hr h.left backed fun depth =>
        Run.run_evalApplication_kept enabled found
    | none =>
      refine Met.congr 0 (fun depth _ => Run.run_evalApplication_new enabled found) ?_
      -- What is kept now is backed by the evaluation that was just compared.
      generalize result : (eval m t).run s = x at met
      cases met with
      | ok resembles hs' hr' ends =>
        have backed : Backed C D _ _ := .intro included.self hs h.left written key result resembles
        have kept := hr'.withResult (fun _ enabled' => enabled'.put backed)
        exact .ok resembles hs' kept (ends.bind (.always fun _ => run_remember _ _ _))
      | failed same hs' hr' ends => exact .failed same hs' hr' ends.bind_error
      | loose _ notStrict => exact .loose _ notStrict
      | deep _ => exact .deep _
  | false => exact met.congr 0 fun depth _ => Run.run_evalApplication_uncached enabled

end Comparison
end KinQuery
