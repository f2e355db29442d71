import KinQuery.Proofs.Evaluation.Spelled

/-! Terms that spell a value.

A value stands in a term as itself, or spelled as a word or as an application of `list` to the
spellings of its items. Such a term has no names in it that bindings could replace, and where
results are not kept it comes to the value in every session, given depth enough. -/
namespace KinQuery

open List (Forall₂)

/-- The term spells the value, by words that are not among the names in `hidden`. -/
inductive Spells (hidden : List String) : Term Value → Value → Prop
  | value (v : Value) : Spells hidden (.value v) v
  | word {v : Value} : v.IsWord → v.key ∉ hidden → Spells hidden (.atom v.key) v
  | list {head : Term Value} {parts : List (Term Value)} {items : List Value} :
      Spells hidden head (.function (.primitive .list)) → items ≠ [] →
        Forall₂ (Spells hidden) parts items →
          Spells hidden (.compound (head :: parts)) (.list items)

/-- Results are not kept, registered functions and definitions bear proper names, and what is
defined hides no function. -/
structure Session.IsDirect (s : Session) : Prop where
  uncached : s.cache.enabled = false
  hosts : ∀ h ∈ s.hosts, IsProper h.name
  proper : ∀ name v, s.definition? name = some v → IsProper name
  apart : ∀ name v, s.definition? name = some v → s.function? name = none

variable {hidden inner : List String} {t head : Term Value} {parts : List (Term Value)}
  {v : Value} {items : List Value} {s s' : Session} {n : Nat} {evaluate : Term Value → Run Value}
  {perform : Function Value → List Value → Run Value}

namespace Session.IsDirect

theorem sameButTree (direct : s.IsDirect) (same : s.SameButTree s') : s'.IsDirect := by
  rcases same with rfl | rfl
  · exact direct
  · exact ⟨direct.uncached, direct.hosts, direct.proper, direct.apart⟩

theorem run_resolve_primitive (direct : s.IsDirect) (p : Primitive) :
    (resolve evaluate (.atom p.name)).run s = (.ok (.primitive p), s) := by
  have known : s.function? p.name = some (.primitive p) := by
    rw [Session.function?, p.ofName?_name]
  have undefined : s.definition? p.name = none := by
    cases hv : s.definition? p.name with
    | none => rfl
    | some v =>
      rw [direct.apart _ v hv] at known
      cases known
  rw [resolve, Run.run_bind_ok (Run.run_get s), undefined, known]
  rfl

/-- Words of values, but for those of primitives, are no names of functions or definitions. -/
theorem run_resolve_word (direct : s.IsDirect) (word : v.IsWord)
    (other : ∀ p, v ≠ .function (.primitive p)) :
    (resolve evaluate (.atom v.key)).run s = (evalToFunction evaluate (.atom v.key)).run s := by
  have improper : ¬IsProper v.key := fun proper => by
    obtain ⟨p, rfl⟩ := word.eq_primitive proper
    exact other p rfl
  have undefined : s.definition? v.key = none := by
    cases hv : s.definition? v.key with
    | none => rfl
    | some w => exact absurd (direct.proper _ w hv) improper
  have unknown : s.function? v.key = none := by
    unfold Session.function?
    split
    · rename_i p hp
      have spelled : p.name = v.key := by simpa using List.find?_some hp
      exact absurd (word.eq_primitive_of_key spelled.symm) (other p)
    · rw [Option.map_eq_none_iff, List.find?_eq_none]
      intro h member spelled
      have spelled : h.name = v.key := by simpa using spelled
      exact absurd (spelled ▸ direct.hosts h member) improper
  rw [resolve, Run.run_bind_ok (Run.run_get s), undefined, unknown]

theorem run_evalApplication (direct : s.IsDirect) (head : Term Value)
    (arguments : List (Term Value)) :
    (evalApplication evaluate perform head arguments).run s =
      (applyTo evaluate perform head arguments).run s :=
  Run.run_evalApplication_uncached direct.uncached

end Session.IsDirect

namespace Spells

/-- Induction on spellings that gives the hypothesis for every item of a list. -/
@[elab_as_elim]
theorem induction {motive : Term Value → Value → Prop} (value : ∀ v, motive (.value v) v)
    (word : ∀ v : Value, v.IsWord → v.key ∉ hidden → motive (.atom v.key) v)
    (list : ∀ head parts items, Spells hidden head (.function (.primitive .list)) →
      motive head (.function (.primitive .list)) → items ≠ [] →
        Forall₂ (Spells hidden) parts items → Forall₂ motive parts items →
          motive (.compound (head :: parts)) (.list items))
    (h : Spells hidden t v) : motive t v := by
  induction t using Term.induction generalizing v with
  | value w =>
    cases h
    exact value w
  | atom text =>
    cases h with
    | word isWord free => exact word v isWord free
  | compound parts ih =>
    cases h with
    | list head nonempty each =>
      have first := ih _ List.mem_cons_self head
      refine list _ _ _ head first nonempty each (List.forall₂_iff_zip.2 ⟨each.length_eq, ?_⟩)
      intro part item pair
      have member := (List.of_mem_zip pair).1
      exact ih part (List.mem_cons_of_mem _ member) (List.forall₂_zip each pair)

/-- The head of a spelled list is a word or a value. -/
theorem head_cases (h : Spells hidden head (.function (.primitive .list))) :
    head = .atom Primitive.list.name ∨ head = .value (.function (.primitive .list)) := by
  cases h with
  | value _ => exact .inr rfl
  | word _ _ =>
    rw [Value.key, Value.spell]
    exact .inl rfl

theorem specialForm? (h : Spells hidden head (.function (.primitive .list)))
    (parts : List (Term Value)) : (Term.compound (head :: parts)).specialForm? = none := by
  rcases h.head_cases with rfl | rfl
  · rfl
  · rfl

theorem mono (h : Spells hidden t v) (fewer : inner ⊆ hidden) : Spells inner t v := by
  refine Spells.induction ?value ?word ?list h
  case value => exact .value
  case word => exact fun v word free => .word word fun inside => free (fewer inside)
  case list => exact fun head parts items _ first nonempty _ each => .list first nonempty each

/-- What spells a value has no names to put anything in place of. -/
theorem substitute (h : Spells hidden t v) {bindings : Bindings Value}
    (free : ∀ name, name ∉ hidden → bindings name = none) : t.substitute bindings = t := by
  refine Spells.induction ?value ?word ?list h
  case value =>
    intro v
    rw [Term.substitute]
  case word =>
    intro v _ other
    rw [Term.substitute, free _ other]
  case list =>
    intro head parts items first closed _ _ each
    have notDefine : (head :: parts).head? ≠ some (.atom "define") := by
      rcases first.head_cases with rfl | rfl <;> simp [Primitive.name]
    have notLambda (parameters body : Term Value) :
        head :: parts ≠ [.atom "lambda", parameters, body] := by
      rcases first.head_cases with rfl | rfl <;> simp [Primitive.name]
    have rest : parts.map (Term.substitute bindings) = parts := by
      rw [← List.forall₂_eq_eq_eq, List.forall₂_map_left_iff, List.forall₂_same]
      exact ((List.forall₂_and_left (R := fun _ _ => True) _ _).1
        (each.imp fun _ _ same => ⟨same, trivial⟩)).1
    rw [Term.substitute_parts _ notDefine notLambda, List.map_cons, closed, rest]

/-! ### Evaluation -/

/-- The term comes to the value, unless it is nested too deeply. -/
def ComesTo (n : Nat) (t : Term Value) (v : Value) : Prop :=
  ∀ s : Session, s.IsDirect → ∃ s', s.SameButTree s' ∧
    ((eval n t).run s = (.ok v, s') ∨ n ≤ t.height ∧ (eval n t).run s = (.error .tooDeep, s'))

theorem comesTo_parts (each : Forall₂ (ComesTo n) parts items) (direct : s.IsDirect) :
    ∃ s', s.SameButTree s' ∧ ((parts.mapM (eval n)).run s = (.ok items, s') ∨
      (∃ part ∈ parts, n ≤ part.height) ∧ (parts.mapM (eval n)).run s = (.error .tooDeep, s')) := by
  induction each generalizing s with
  | nil => exact ⟨s, .inl rfl, .inl rfl⟩
  | @cons part item parts items first _ ih =>
    obtain ⟨s', same, done | ⟨below, deep⟩⟩ := first s direct
    · obtain ⟨s'', same', rest⟩ := ih (direct.sameButTree same)
      refine ⟨s'', same.trans same', ?_⟩
      rw [List.mapM_cons, Run.run_bind_ok done]
      rcases rest with rest | ⟨⟨other, member, below⟩, rest⟩
      · rw [Run.run_bind_ok rest]
        exact .inl rfl
      · rw [Run.run_bind_error rest]
        exact .inr ⟨⟨other, List.mem_cons_of_mem _ member, below⟩, rfl⟩
    · refine ⟨s', same, .inr ⟨⟨part, List.mem_cons_self, below⟩, ?_⟩⟩
      rw [List.mapM_cons, Run.run_bind_error deep]

theorem run_resolve (h : Spells hidden head (.function (.primitive .list))) (direct : s.IsDirect) :
    (resolve (eval n) head).run s = (.ok (.primitive .list), s) ∨
      n = 0 ∧ (resolve (eval n) head).run s = (.error .tooDeep, s) := by
  rcases h.head_cases with rfl | rfl
  · exact .inl (direct.run_resolve_primitive .list)
  · cases n with
    | zero => exact .inr ⟨rfl, rfl⟩
    | succ n => exact .inl rfl

/-- A spelled function is found at once if it is a primitive, and has to be evaluated else. -/
theorem run_resolve_cases (h : Spells hidden t v) (direct : s.IsDirect) :
    (∃ p, v = .function (.primitive p) ∧ (resolve evaluate t).run s = (.ok (.primitive p), s)) ∨
      (resolve evaluate t).run s = (evalToFunction evaluate t).run s := by
  cases h with
  | value _ => exact .inr rfl
  | word word _ =>
    by_cases primitive : ∃ p, v = .function (.primitive p)
    · obtain ⟨p, rfl⟩ := primitive
      rw [Value.key, Value.spell]
      exact .inl ⟨p, rfl, direct.run_resolve_primitive p⟩
    · exact .inr (direct.run_resolve_word word fun p same => primitive ⟨p, same⟩)
  | list _ _ _ => exact .inr rfl

theorem comesTo (h : Spells hidden t v) : ∀ n, ComesTo n t v := by
  refine Spells.induction ?value ?word ?list h
  case value =>
    intro v n s direct
    cases n with
    | zero => exact ⟨s, .inl rfl, .inr ⟨Nat.zero_le _, rfl⟩⟩
    | succ n => exact ⟨s, .inl rfl, .inl rfl⟩
  case word =>
    intro v word _ n s direct
    cases n with
    | zero => exact ⟨s, .inl rfl, .inr ⟨Nat.zero_le _, rfl⟩⟩
    | succ n =>
      obtain ⟨s', same, run⟩ := run_evalAtom v.key s
      rw [word.atomAnswer_key] at run
      exact ⟨s', same, .inl run⟩
  case list =>
    intro head parts items first _ nonempty _ each n s direct
    cases n with
    | zero => exact ⟨s, .inl rfl, .inr ⟨Nat.zero_le _, rfl⟩⟩
    | succ n =>
      have opened : (eval (n + 1) (.compound (head :: parts))).run s =
          (applyTo (eval n) (apply n) head parts).run s := by
        rw [eval_compound, evalCompound, first.specialForm?]
        exact direct.run_evalApplication head parts
      have positive : 1 ≤ (Term.compound (head :: parts)).height := by
        rw [Term.height]
        omega
      rw [opened, applyTo]
      rcases first.run_resolve (n := n) direct with resolved | ⟨rfl, deep⟩
      · have length : 1 ≤ parts.length := by
          rw [each.length_eq]
          exact List.length_pos_of_ne_nil nonempty
        rw [Run.run_bind_ok resolved, checkArity_list length, Run.ofExcept_ok, pure_bind]
        obtain ⟨s', same, done | ⟨⟨part, member, below⟩, deep⟩⟩ :=
          comesTo_parts (each.imp fun _ _ each => each n) direct
        · rw [Run.run_bind_ok done]
          cases n with
          | zero =>
            refine ⟨s', same, .inr ⟨positive, rfl⟩⟩
          | succ n =>
            refine ⟨s', same, .inl ?_⟩
            have length : 1 ≤ items.length := List.length_pos_of_ne_nil nonempty
            rw [apply_primitive, checkArity_list length]
            rfl
        · rw [Run.run_bind_error deep]
          have := Term.height_lt (List.mem_cons_of_mem head member)
          exact ⟨s', same, .inr ⟨by omega, rfl⟩⟩
      · rw [Run.run_bind_error deep]
        exact ⟨s, .inl rfl, .inr ⟨positive, rfl⟩⟩

end Spells
end KinQuery
