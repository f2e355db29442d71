import KinQuery.Proofs.Session.FailedQuery
import KinQuery.Proofs.Text.Script

/-! A query given as a script.

A script of one term runs its text clipped. A query without markers is run alike if it is given
as a script. A query with markers is refused, but a script can lose them when it is clipped. -/
namespace KinQuery

open Text (clip isBalanced marker splitTerms)

variable {α β γ : Type} {s : Session} {depth : Nat} {query piece : String}

/-! ### Refused queries -/

theorem readQuery_of_marked (marked : marker ∈ query.toList) :
    readQuery query = .error (.unbalancedQuery query) := by
  have refused : ¬ isBalanced query.toList := fun balanced =>
    Text.marker_not_mem_of_balancedFrom balanced marked
  rw [readQuery, if_neg refused]

/-- A balanced query is read as it is when it is clipped. -/
theorem readQuery_clip (balanced : isBalanced query.toList = true) :
    readQuery (.ofList (clip query.toList)) = readQuery query := by
  rw [readQuery, readQuery, String.toList_ofList, Text.isBalanced_clip balanced,
    Text.clip_clip balanced, balanced, if_pos rfl, if_pos rfl]

namespace Session

theorem exec_congr (same : readQuery query = readQuery piece) (depth : Nat) (s : Session) :
    s.exec depth query = s.exec depth piece := by
  rw [exec, execBy, exec, execBy, runQuery, runQuery, same]

theorem exec_of_marked (marked : marker ∈ query.toList) (depth : Nat) (s : Session) :
    s.exec depth query = (.error (.failed (.unbalancedQuery query)), s.mapCache .discard) := by
  rw [exec_eq, task, taskAsRead, readQuery_of_marked marked]
  rfl

theorem execScript_of_single (single : splitTerms query = .ok [piece]) (depth : Nat)
    (s : Session) :
    s.execScript depth query =
      ((s.exec depth piece).1.map fun _ => 1, (s.exec depth piece).2) := by
  rw [execScript, single]
  simp only [execAll]
  rcases s.exec depth piece with ⟨halt | v, t⟩ <;> rfl

/-! ### Runs that are told apart by nothing but their answers -/

/-- Both runs succeed, or both fail in the same class. -/
inductive SameOutcome : Except Halt α → Except Halt β → Prop
  | ok {a : α} {b : β} : SameOutcome (.ok a) (.ok b)
  | failed {f g : Failure} : f.failureClass = g.failureClass →
      SameOutcome (.error (.failed f)) (.error (.failed g))
  | tooDeep : SameOutcome (.error .tooDeep) (.error .tooDeep)

/-- Two runs end alike, and leave the same definitions and results for the same keys. -/
structure Agrees (r : Except Halt α × Session) (r' : Except Halt β × Session) : Prop where
  outcome : SameOutcome r.1 r'.1
  definitions : r.2.definitions = r'.2.definitions
  keys (key : String) : key ∈ r.2.cache.entries.map Prod.fst ↔ key ∈ r'.2.cache.entries.map Prod.fst

theorem SameOutcome.map (f : α → β) (r : Except Halt α) : SameOutcome (r.map f) r := by
  cases r with
  | ok => exact .ok
  | error halt =>
    cases halt with
    | failed => exact .failed rfl
    | tooDeep => exact .tooDeep

theorem SameOutcome.symm {r : Except Halt α} {r' : Except Halt β} (h : SameOutcome r r') :
    SameOutcome r' r := by
  cases h with
  | ok => exact .ok
  | failed same => exact .failed same.symm
  | tooDeep => exact .tooDeep

theorem SameOutcome.trans {r : Except Halt α} {r' : Except Halt β} {r'' : Except Halt γ}
    (h : SameOutcome r r') (h' : SameOutcome r' r'') : SameOutcome r r'' := by
  cases h with
  | ok => cases h' with | ok => exact .ok
  | failed same => cases h' with | failed same' => exact .failed (same.trans same')
  | tooDeep => cases h' with | tooDeep => exact .tooDeep

namespace Agrees

variable {r : Except Halt α × Session} {r' : Except Halt β × Session}
  {r'' : Except Halt γ × Session}

theorem symm (h : Agrees r r') : Agrees r' r :=
  ⟨h.outcome.symm, h.definitions.symm, fun key => (h.keys key).symm⟩

theorem trans (h : Agrees r r') (h' : Agrees r' r'') : Agrees r r'' :=
  ⟨h.outcome.trans h'.outcome, h.definitions.trans h'.definitions,
    fun key => (h.keys key).trans (h'.keys key)⟩

end Agrees

theorem execScript_agrees_piece (single : splitTerms query = .ok [piece]) (depth : Nat)
    (s : Session) : Agrees (s.execScript depth query) (s.exec depth piece) := by
  rw [execScript_of_single single]
  exact ⟨.map _ _, rfl, fun _ => .rfl⟩

/-- The outcome of a query that is refused before anything is evaluated. -/
def refusal (s : Session) (query : String) : Except Halt Value × Session :=
  (.error (.failed (.unbalancedQuery query)), s)

theorem exec_agrees_refusal (marked : marker ∈ query.toList) (depth : Nat) (s : Session)
    (other : String) : Agrees (s.exec depth query) (s.refusal other) := by
  rw [exec_of_marked marked]
  exact ⟨.failed rfl, rfl, fun _ => .rfl⟩

/-- A script of one term runs its text clipped. Without markers it does what the query does. With
markers the query is refused, so they agree exactly if the clipped text has a marker too, or fails
as a malformed term that leaves nothing behind. -/
theorem execScript_agrees_iff (s : Session) (depth : Nat) (plain : ';' ∉ query.toList)
    (single : splitTerms query = .ok [piece]) :
    piece = .ofList (clip query.toList) ∧
      (marker ∉ query.toList → s.execScript depth query =
        ((s.exec depth query).1.map fun _ => 1, (s.exec depth query).2)) ∧
      (Agrees (s.execScript depth query) (s.exec depth query) ↔
        (marker ∈ query.toList → marker ∉ piece.toList →
          Agrees (s.exec depth piece) (s.refusal query))) := by
  have uncommented := Text.plain_of_free plain
  have clipped := Text.eq_clip_of_splitTerms uncommented single
  have run := execScript_agrees_piece single depth s
  have same (unmarked : marker ∉ query.toList) : s.exec depth query = s.exec depth piece := by
    have balanced := Text.isOk_splitTerms unmarked uncommented
    rw [single] at balanced
    exact exec_congr (clipped ▸ (readQuery_clip balanced.symm).symm) depth s
  refine ⟨clipped, fun unmarked => ?_, fun agrees marked _ => ?_, fun refused => ?_⟩
  · rw [same unmarked]
    exact execScript_of_single single depth s
  · exact (run.symm.trans agrees).trans (exec_agrees_refusal marked depth s query)
  · by_cases marked : marker ∈ query.toList
    · refine (run.trans ?_).trans (exec_agrees_refusal marked depth s query).symm
      by_cases kept : marker ∈ piece.toList
      · exact exec_agrees_refusal kept depth s query
      · exact refused marked kept
    · rw [same marked]
      exact run

theorem execScript_agrees_iff_blank :
    let query := " (list\n true )"
    let piece := "(list true)"
    ';' ∉ query.toList ∧ splitTerms query = .ok [piece] ∧
      piece = .ofList (clip query.toList) ∧
      (marker ∉ query.toList → fresh.execScript 3 query =
        ((fresh.exec 3 query).1.map fun _ => 1, (fresh.exec 3 query).2)) ∧
      (Agrees (fresh.execScript 3 query) (fresh.exec 3 query) ↔
        (marker ∈ query.toList → marker ∉ piece.toList →
          Agrees (fresh.exec 3 piece) (fresh.refusal query))) := by
  intro query piece
  have plain : ';' ∉ query.toList := by decide
  have single : splitTerms query = .ok [piece] := by decide
  exact ⟨plain, single, execScript_agrees_iff fresh 3 plain single⟩

/-- A definition after a marker is refused as a query, and carried out as a script. -/
theorem execScript_defines_marked :
    let query := "\x0f(define one 1)"
    ';' ∉ query.toList ∧ splitTerms query = .ok ["(define one 1)"] ∧
      (fresh.exec 2 query).1 = .error (.failed (.unbalancedQuery query)) ∧
      (fresh.exec 2 query).2.definitions.map Prod.fst = [] ∧
      (fresh.execScript 2 query).1 = .ok 1 ∧
      (fresh.execScript 2 query).2.definitions.map Prod.fst = ["one"] ∧
      ¬ Agrees (fresh.execScript 2 query) (fresh.exec 2 query) := by
  intro query
  have single : splitTerms query = .ok ["(define one 1)"] := by decide
  have read : readQuery "(define one 1)" =
      .ok (.compound [.atom "define", .atom "one", .atom "1"]) := by cbv
  have marked : marker ∈ query.toList := by decide
  have refused := exec_of_marked marked 2 fresh
  have answer : (fresh.execScript 2 query).1 = .ok 1 := by
    rw [execScript_of_single single, exec_of_read read]
    decide +kernel
  have defined : (fresh.execScript 2 query).2.definitions.map Prod.fst = ["one"] := by
    rw [execScript_of_single single, exec_of_read read]
    decide +kernel
  have nothing : (fresh.exec 2 query).2.definitions.map Prod.fst = [] := by
    rw [refused]
    rfl
  refine ⟨by decide, single, by rw [refused], nothing, answer, defined, fun agrees => ?_⟩
  have outcome := agrees.outcome
  rw [answer, refused] at outcome
  cases outcome

end Session
end KinQuery
