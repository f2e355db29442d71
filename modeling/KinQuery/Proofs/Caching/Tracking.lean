import KinQuery.Proofs.Caching.Counterpart
import KinQuery.Proofs.Caching.Data
import KinQuery.Proofs.Evaluation.Simulation

/-! Evaluation that is tracked by another one.

The first evaluation has a fixed depth and keeps no results. The second may, and goes as deep as it
needs: given enough depth it ends like the first, with a value that resembles the first one or
with a failure of the same class. Where the second session has more definitions than the first,
nothing is said of failures. -/
namespace KinQuery

open List (Forall₂)

variable {α β γ δ : Type} {C : Convention} {w : World} {D : List (String × Value)}
  {K : Cache → Prop} {s s' r r' : Session}

/-! ### Sessions -/

/-- The session has this world and these definitions, and of its cache something is known. -/
structure Session.Shows (w : World) (D : List (String × Value)) (K : Cache → Prop)
    (s : Session) : Prop where
  hosts : s.hosts = []
  world : s.world = w
  definitions : s.definitions = D
  cache : K s.cache

namespace Session.Shows

theorem sameButTree (h : s.Shows w D K) (same : s.SameButTree s') : s'.Shows w D K := by
  have world := same.world.trans h.world
  rcases same with rfl | rfl
  · exact h
  · exact ⟨h.hosts, world, h.definitions, h.cache⟩

theorem withLambdas (h : s.Shows w D K) (lambdas : Nat) : Shows w D K { s with lambdas } :=
  ⟨h.hosts, h.world, h.definitions, h.cache⟩

theorem tree (h : s.Shows w D K) : s.tree.1 = w.tree :=
  congrArg World.tree h.world

theorem dictionary (h : s.Shows w D K) : s.dictionary = w.dictionary :=
  congrArg World.dictionary h.world

theorem today (h : s.Shows w D K) : s.today = w.today :=
  congrArg World.today h.world

theorem definition? (h : s.Shows w D K) (name : String) : s.definition? name = D.lookup name := by
  rw [Session.definition?, h.definitions]

theorem function? (h : s.Shows w D K) (name : String) :
    s.function? name = (Primitive.ofName? name).map .primitive := by
  rw [Session.function?, h.hosts]
  cases Primitive.ofName? name <;> rfl

end Session.Shows

/-! ### Ends of runs -/

/-- From some depth on the computations have this outcome. -/
def Run.Ends (n : Nat → Run α) (r : Session) (outcome : Except Halt α × Session) : Prop :=
  ∃ bound, ∀ depth, bound ≤ depth → (n depth).run r = outcome

namespace Run.Ends
variable {n n' : Nat → Run α} {f : Nat → α → Run β} {a : α} {halt : Halt}
  {x y : Except Halt α × Session} {z : Except Halt β × Session}

theorem always (h : ∀ depth, (n depth).run r = x) : Ends n r x :=
  ⟨0, fun depth _ => h depth⟩

theorem unique (h : Ends n r x) (h' : Ends n r y) : x = y := by
  obtain ⟨bound, ends⟩ := h
  obtain ⟨bound', ends'⟩ := h'
  rw [← ends (max bound bound') (by omega), ends' (max bound bound') (by omega)]

/-- Computations that are the same from some depth on end alike. -/
theorem congr (k : Nat) (same : ∀ depth, k ≤ depth → (n' depth).run r = (n depth).run r)
    (h : Ends n r x) : Ends n' r x := by
  obtain ⟨bound, ends⟩ := h
  refine ⟨max k bound, fun depth deep => ?_⟩
  rw [same depth (by omega), ends depth (by omega)]

theorem succ (h : Ends (fun depth => n (depth + 1)) r x) : Ends n r x := by
  obtain ⟨bound, ends⟩ := h
  refine ⟨bound + 1, fun depth deep => ?_⟩
  obtain ⟨depth, rfl⟩ : ∃ d, depth = d + 1 := ⟨depth - 1, by omega⟩
  exact ends depth (by omega)

theorem bind (first : Ends n r (.ok a, r')) (next : Ends (f · a) r' z) :
    Ends (fun depth => n depth >>= f depth) r z := by
  obtain ⟨bound, ends⟩ := first
  obtain ⟨bound', ends'⟩ := next
  refine ⟨max bound bound', fun depth deep => ?_⟩
  rw [run_bind_ok (ends depth (by omega)), ends' depth (by omega)]

theorem bind_error (first : Ends n r (.error halt, r')) :
    Ends (fun depth => n depth >>= f depth) r (.error halt, r') := by
  obtain ⟨bound, ends⟩ := first
  exact ⟨bound, fun depth deep => run_bind_error (ends depth deep)⟩

end Run.Ends

open Run (Ends)

/-! ### Comparisons -/

/-- Every definition of the first list is one of the second, up to resemblance. -/
structure Included (C : Convention) (D E : List (String × Value)) : Prop where
  opened : ∀ entry ∈ D ++ E, IsOpen entry.1
  values : ∀ name v, D.lookup name = some v → ∃ w, E.lookup name = some w ∧ v.Resembles C w

/-- Definitions of two sessions, and what is known of the cache of the second. The second has
all definitions of the first, and no others if the comparison is strict. -/
structure Comparison (C : Convention) where
  first : List (String × Value)
  second : List (String × Value)
  kept : Cache → Prop
  strict : Prop
  included : Included C first second
  names : strict → ∀ name, first.lookup name = none → second.lookup name = none

namespace Comparison
variable (X : Comparison C)

abbrev First (s : Session) : Prop :=
  s.Shows C.world X.first (·.enabled = false)

abbrev Second (s : Session) : Prop :=
  s.Shows C.world X.second X.kept

/-- The second computation, run in the second session, meets what the first has come to. -/
inductive Met (A : α → β → Prop) : Except Halt α × Session → (Nat → Run β) → Session → Prop
  | ok {a : α} {b : β} {s r r' : Session} {n : Nat → Run β} : A a b → X.First s → X.Second r' →
      Ends n r (.ok b, r') → Met A (.ok a, s) n r
  | failed {f g : Failure} {s r r' : Session} {n : Nat → Run β} :
      f.failureClass = g.failureClass → X.First s → X.Second r' →
        Ends n r (.error (.failed g), r') → Met A (.error (.failed f), s) n r
  | loose {f : Failure} {s r : Session} (n : Nat → Run β) : ¬X.strict →
      Met A (.error (.failed f), s) n r
  | deep {s r : Session} (n : Nat → Run β) : Met A (.error .tooDeep, s) n r

def Tracks (A : α → β → Prop) (m : Run α) (n : Nat → Run β) : Prop :=
  ∀ s r, X.First s → X.Second r → X.Met A (m.run s) n r

variable {X} {A : α → β → Prop} {B : γ → δ → Prop} {m : Run α} {n : Nat → Run β} {name : String}

theorem lookup_eq_none (X : Comparison C) (notOpen : ¬IsOpen name) :
    X.first.lookup name = none ∧ X.second.lookup name = none := by
  have none {entries : List (String × Value)} (opened : ∀ entry ∈ entries, IsOpen entry.1) :
      entries.lookup name = none := by
    cases found : entries.lookup name with
    | none => rfl
    | some v => exact absurd (opened _ (Bindings.mem_of_ofList found)) notOpen
  exact ⟨none fun entry member => X.included.opened entry (List.mem_append_left _ member),
    none fun entry member => X.included.opened entry (List.mem_append_right _ member)⟩

namespace Met
variable {x : Except Halt α × Session}

theorem mono {A' : α → β → Prop} (h : X.Met A x n r) (weaker : ∀ a b, A a b → A' a b) :
    X.Met A' x n r := by
  cases h with
  | ok related hs hr ends => exact .ok (weaker _ _ related) hs hr ends
  | failed same hs hr ends => exact .failed same hs hr ends
  | loose _ notStrict => exact .loose _ notStrict
  | deep _ => exact .deep _

theorem congr {n' : Nat → Run β} (k : Nat)
    (same : ∀ depth, k ≤ depth → (n' depth).run r = (n depth).run r) (h : X.Met A x n r) :
    X.Met A x n' r := by
  cases h with
  | ok related hs hr ends => exact .ok related hs hr (ends.congr k same)
  | failed same' hs hr ends => exact .failed same' hs hr (ends.congr k same)
  | loose _ notStrict => exact .loose _ notStrict
  | deep _ => exact .deep _

theorem succ (h : X.Met A x (fun depth => n (depth + 1)) r) : X.Met A x n r := by
  cases h with
  | ok related hs hr ends => exact .ok related hs hr ends.succ
  | failed same hs hr ends => exact .failed same hs hr ends.succ
  | loose _ notStrict => exact .loose _ notStrict
  | deep _ => exact .deep _

theorem ensure {Q : α → Prop} (h : X.Met A x n r) (known : ∀ a s, x = (.ok a, s) → Q a) :
    X.Met (fun a b => A a b ∧ Q a) x n r := by
  cases h with
  | ok related hs hr ends => exact .ok ⟨related, known _ _ rfl⟩ hs hr ends
  | failed same hs hr ends => exact .failed same hs hr ends
  | loose _ notStrict => exact .loose _ notStrict
  | deep _ => exact .deep _

theorem known {Q : α → Prop} (h : X.Met (fun a b => A a b ∧ Q a) x n r) :
    ∀ a s, x = (.ok a, s) → Q a := by
  rintro a s rfl
  cases h with
  | ok related _ _ _ => exact related.2

end Met

namespace Tracks

theorem mono {A' : α → β → Prop} (h : X.Tracks A m n) (weaker : ∀ a b, A a b → A' a b) :
    X.Tracks A' m n :=
  fun s r hs hr => (h s r hs hr).mono weaker

/-- What is known of the values of the first computation. -/
theorem ensure {Q : α → Prop} (h : X.Tracks A m n)
    (known : ∀ s a s', m.run s = (.ok a, s') → Q a) : X.Tracks (fun a b => A a b ∧ Q a) m n :=
  fun s r hs hr => (h s r hs hr).ensure (known s)

theorem deep (n : Nat → Run β) : X.Tracks A (throw .tooDeep) n :=
  fun _ _ _ _ => .deep n

theorem succ (h : X.Tracks A m fun depth => n (depth + 1)) : X.Tracks A m n :=
  fun s r hs hr => (h s r hs hr).succ

/-- Computations that only read the session. -/
theorem of_answers (h : ∀ s r, X.First s → X.Second r →
      ∃ (x : Except Failure α) (y : Except Failure β) (s' r' : Session),
        (Matches A x y ∨ ¬X.strict ∧ ∃ f, x = .error f) ∧ s.SameButTree s' ∧ r.SameButTree r' ∧
          m.run s = (x.mapError .failed, s') ∧
            ∀ depth, (n depth).run r = (y.mapError .failed, r')) :
    X.Tracks A m n := by
  intro s r hs hr
  obtain ⟨x, y, s', r', alike, same, same', first, second⟩ := h s r hs hr
  rw [first]
  rcases alike with alike | ⟨notStrict, f, rfl⟩
  · cases alike with
    | ok related =>
      exact .ok related (hs.sameButTree same) (hr.sameButTree same') (.always second)
    | error equal =>
      exact .failed equal (hs.sameButTree same) (hr.sameButTree same') (.always second)
  · exact .loose _ notStrict

theorem ofExcept {x : Except Failure α} {y : Except Failure β} (h : Matches A x y) :
    X.Tracks A (Run.ofExcept x) fun _ => Run.ofExcept y :=
  of_answers fun s r _ _ => ⟨x, y, s, r, .inl h, .inl rfl, .inl rfl, Run.run_ofExcept x s,
    fun _ => Run.run_ofExcept y r⟩

theorem pure {a : α} {b : β} (h : A a b) : X.Tracks A (Pure.pure a) fun _ => Pure.pure b :=
  ofExcept (.ok h)

theorem fail {f g : Failure} (same : f.failureClass = g.failureClass) :
    X.Tracks A (Run.fail f) fun _ => Run.fail g :=
  ofExcept (.error same)

theorem bind {f : α → Run γ} {g : Nat → β → Run δ} (first : X.Tracks A m n)
    (next : ∀ a b, A a b → X.Tracks B (f a) (g · b)) :
    X.Tracks B (m >>= f) fun depth => n depth >>= g depth := by
  intro s r hs hr
  have met := first s r hs hr
  rw [Run.run_bind]
  generalize m.run s = x at met
  cases met with
  | @ok a b s' _ r' _ related hs hr ends =>
    have met' := next a b related s' r' hs hr
    dsimp only
    generalize (f a).run s' = z at met'
    cases met' with
    | ok related hs hr ends' => exact .ok related hs hr (ends.bind ends')
    | failed same hs hr ends' => exact .failed same hs hr (ends.bind ends')
    | loose _ notStrict => exact .loose _ notStrict
    | deep _ => exact .deep _
  | failed same hs hr ends => exact .failed same hs hr ends.bind_error
  | loose _ notStrict => exact .loose _ notStrict
  | deep _ => exact .deep _

/-- One computation after the other, with what is known of each value on the left. -/
theorem mapM {Q : α → γ → Prop} {f : α → Run γ} {g : Nat → β → Run δ} {as : List α} {bs : List β}
    (h : Forall₂ (fun a b => X.Tracks (fun c d => B c d ∧ Q a c) (f a) (g · b)) as bs) :
    X.Tracks (fun cs ds => Forall₂ B cs ds ∧ Forall₂ Q as cs) (as.mapM f)
      fun depth => bs.mapM (g depth) := by
  induction h with
  | nil => exact pure ⟨.nil, .nil⟩
  | cons first _ ih =>
    simp only [List.mapM_cons]
    refine first.bind fun c d hcd => ih.bind fun cs ds hrest => pure ?_
    exact ⟨.cons hcd.1 hrest.1, .cons hcd.2 hrest.2⟩

end Tracks
end Comparison
end KinQuery
