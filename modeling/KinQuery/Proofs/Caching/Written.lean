import KinQuery.Proofs.Caching.Apart

/-! Substitution in terms whose values are written out.

What a term comes to once values are put in place and written out can be told from the term
written out before, if its parameters stand apart. -/
namespace KinQuery

variable {isLocal : String → Prop} {bound : List String} {t : Term Value} {v : Value}
  {parts : List (Term Value)} {text : String} {bindings bindings' : Bindings Value}

theorem Term.IsBare.expand (bare : t.IsBare) : t.expand = t := by
  induction bare with
  | atom _ => rw [Term.expand]
  | compound _ ih => rw [Term.expand_compound, List.map_congr_left ih, List.map_id']

theorem Value.KeepsApart.isWord (apart : v.KeepsApart isLocal) (legible : v.Obeys .legible)
    (atomic : v.IsAtomic) : v.IsWord := by
  rcases isWord_or_host legible atomic with word | ⟨h, rfl⟩
  · exact word
  · cases apart with
    | plain _ noFunction => exact absurd rfl (noFunction _)

theorem IsOpen.key_ne (opened : IsOpen text) (word : v.IsWord) : v.key ≠ text :=
  word.key_ne opened.1 opened.2

theorem not_isProper_mark (id : PersonId) : ¬IsProper ("#" ++ toString id) := by
  intro proper
  obtain ⟨c, cs, spelled, letter⟩ := toList_of_isReference proper.1
  have mark : c = '#' := by
    have head : ("#" ++ toString id).toList.head? = some '#' := by simp [String.toList_append]
    rw [spelled] at head
    exact Option.some.inj head
  subst mark
  cases letter

/-! ### Names that are free once values are written out -/

/-- Of local names, only those that are bound outside are free. -/
def Term.FreeIsBound (isLocal : String → Prop) (t : Term Value) : Prop :=
  ∀ bound, t.Obeys .legible → t.KeepsApart isLocal bound →
    ∀ name ∈ t.expand.free, isLocal name → name ∈ bound

theorem Term.exists_mem_free_expand {name : String} (h : name ∈ (compound parts).expand.free) :
    ∃ part ∈ parts, name ∈ part.expand.free := by
  rw [expand_compound] at h
  obtain ⟨_, written, free⟩ := exists_mem_free h
  obtain ⟨part, member, rfl⟩ := List.mem_map.1 written
  exact ⟨part, member, free⟩

theorem Term.freeIsBound_compound (opened : ∀ name, isLocal name → IsOpen name)
    (each : ∀ part ∈ parts, part.FreeIsBound isLocal) : (compound parts).FreeIsBound isLocal := by
  intro bound legible apart name free here
  rw [obeys_compound] at legible
  have outside (part : Term Value) (member : part ∈ parts) {bound : List String}
      (apart : part.KeepsApart isLocal bound) (free : name ∈ part.expand.free) : name ∈ bound :=
    each part member bound (legible part member) apart name free here
  cases apart with
  | @lambda _ parameters body bare declared inside =>
    rw [expand_compound, List.map_cons, List.map_cons, List.map_singleton, expand, bare.expand,
      mem_free_lambda] at free
    exact (List.mem_append.1 (outside body (by simp) inside free.1)).resolve_left free.2
  | @define _ parts first others =>
    obtain ⟨part, member, found⟩ := exists_mem_free_expand free
    rcases List.mem_cons.1 member with rfl | inside
    · rw [expand, Term.free, List.mem_singleton] at found
      exact absurd found ((opened name here).ne_form .define)
    · cases parts with
      | nil => cases inside
      | cons head parts =>
        rcases List.mem_cons.1 inside with same | inside
        · cases outside part member (first part (same ▸ rfl)) found
        · exact outside part member (others part inside) found
  | @equal _ arguments _ others =>
    obtain ⟨part, member, found⟩ := exists_mem_free_expand free
    rcases List.mem_cons.1 member with rfl | inside
    · rw [expand, Term.free, List.mem_singleton] at found
      exact absurd found ((opened name here).ne_primitive .equal)
    · exact outside part member (others part inside) found
  | parts _ _ others =>
    obtain ⟨part, member, found⟩ := exists_mem_free_expand free
    exact outside part member (others part member) found

theorem Value.not_local_of_isAtomic (opened : ∀ name, isLocal name → IsOpen name)
    (legible : v.Obeys .legible) (apart : v.KeepsApart isLocal) (atomic : v.IsAtomic) :
    ∀ name ∈ v.expand.free, ¬isLocal name := by
  intro name free here
  rw [expand_of_isAtomic atomic, Term.free, List.mem_singleton] at free
  exact (opened name here).key_ne (apart.isWord legible atomic) free.symm

mutual

/-- No local name is free in a value that is written out. -/
theorem Value.not_local (opened : ∀ name, isLocal name → IsOpen name) :
    ∀ {v : Value}, v.Obeys .legible → v.KeepsApart isLocal →
      ∀ name ∈ v.expand.free, ¬isLocal name
  | .list (item :: items), legible, apart => by
    intro name free here
    rw [Value.expand] at free
    obtain ⟨part, member, free⟩ := Term.exists_mem_free free
    have each : ∀ x ∈ item :: items, x.KeepsApart isLocal := by
      cases apart with
      | plain noList _ => exact absurd rfl (noList _)
      | list each => exact each
    rw [Value.obeys_list] at legible
    rcases List.mem_cons.1 member with rfl | member
    · rw [Term.free, List.mem_singleton] at free
      exact (opened name here).ne_primitive .list free
    · have among : part ∈ Value.expandItems (item :: items) := by rwa [Value.expandItems]
      exact Value.not_local_items opened legible each part among name free here
  | .person p, _, _ => by
    intro name free here
    rw [Value.expand] at free
    obtain ⟨part, member, free⟩ := Term.exists_mem_free free
    simp only [List.mem_cons, List.not_mem_nil, or_false] at member
    rcases member with rfl | rfl
    · rw [Term.free, List.mem_singleton] at free
      exact (opened name here).ne_primitive .person free
    · rw [Term.free, List.mem_singleton] at free
      exact not_isProper_mark p.id (free ▸ (opened name here).1)
  | .function (.lambda serial parameters body), legible, apart => by
    intro name free here
    rw [Value.expand, Term.mem_free_lambda, Term.declared_atoms] at free
    cases apart with
    | plain _ noFunction => exact absurd rfl (noFunction _)
    | lambda _ _ inside =>
      exact free.2 (Term.freeIsBound opened body parameters (Value.obeys_lambda.1 legible).2 inside
        name free.1 here)
  | .list [], legible, apart | .boolean _, legible, apart | .numeral _, legible, apart
  | .string _, legible, apart | .date _, legible, apart | .void, legible, apart
  | .function (.primitive _), legible, apart | .function (.host _), legible, apart =>
    Value.not_local_of_isAtomic opened legible apart trivial

theorem Value.not_local_items (opened : ∀ name, isLocal name → IsOpen name) :
    ∀ {items : List Value}, (∀ item ∈ items, item.Obeys .legible) →
      (∀ item ∈ items, item.KeepsApart isLocal) →
        ∀ part ∈ Value.expandItems items, ∀ name ∈ part.free, ¬isLocal name
  | [], _, _, part, member => by cases member
  | item :: items, legible, apart, part, member => by
    obtain ⟨first, rest⟩ := List.forall_mem_cons.1 legible
    obtain ⟨first', rest'⟩ := List.forall_mem_cons.1 apart
    rw [Value.expandItems] at member
    rcases List.mem_cons.1 member with rfl | member
    · exact Value.not_local opened first first'
    · exact Value.not_local_items opened rest rest' part member

theorem Term.freeIsBound (opened : ∀ name, isLocal name → IsOpen name) :
    ∀ t : Term Value, t.FreeIsBound isLocal
  | .atom text => by
    intro bound _ apart name free here
    rw [Term.expand, Term.free, List.mem_singleton] at free
    subst free
    cases apart with
    | atom _ inside => exact inside here
  | .value v => by
    intro bound legible apart name free here
    rw [Term.expand] at free
    cases apart with
    | value apart =>
      exact absurd here (Value.not_local opened (Term.obeys_value.1 legible) apart name free)
  | .compound parts => Term.freeIsBound_compound opened (Term.freeIsBound_parts opened parts)

theorem Term.freeIsBound_parts (opened : ∀ name, isLocal name → IsOpen name) :
    ∀ parts : List (Term Value), ∀ part ∈ parts, part.FreeIsBound isLocal
  | [] => by simp
  | part :: parts => List.forall_mem_cons.2
      ⟨Term.freeIsBound opened part, Term.freeIsBound_parts opened parts⟩

end

/-! ### Substitution and writing out -/

namespace Term

/-- An atom is written for itself, or for the word of a value. -/
theorem eq_atom_of_expand (legible : t.Obeys .legible) (apart : t.KeepsApart isLocal bound)
    (h : t.expand = .atom text) :
    t = .atom text ∨ ∃ v : Value, t = .value v ∧ v.IsWord ∧ v.key = text := by
  cases t with
  | atom other =>
    rw [expand] at h
    exact .inl h
  | value v =>
    rw [expand] at h
    obtain ⟨atomic, key⟩ := Value.isAtomic_of_expand h
    cases apart with
    | value apart => exact .inr ⟨v, rfl, apart.isWord (obeys_value.1 legible) atomic, key⟩
  | compound parts =>
    rw [expand_compound] at h
    cases h

theorem eq_form_of_expand (form : SpecialForm) (legible : t.Obeys .legible)
    (apart : t.KeepsApart isLocal bound) (h : t.expand = .atom form.word) :
    t = .atom form.word := by
  rcases eq_atom_of_expand legible apart h with same | ⟨v, rfl, word, key⟩
  · exact same
  · have special := SpecialForm.ofWord?_word form
    rw [← key, word.ofWord?_key] at special
    cases special

/-- A compound begins no special form that it did not begin before it was written out. -/
theorem forms_map_expand (legible : ∀ part ∈ parts, part.Obeys .legible)
    (apart : ∀ part ∈ parts, part.KeepsApart isLocal bound)
    (notDefine : parts.head? ≠ some (.atom "define"))
    (notLambda : ∀ parameters body, parts ≠ [.atom "lambda", parameters, body]) :
    (parts.map expand).head? ≠ some (.atom "define") ∧
      ∀ parameters body, parts.map expand ≠ [.atom "lambda", parameters, body] := by
  constructor
  · intro define
    cases parts with
    | nil => cases define
    | cons part parts =>
      have head : part.expand = .atom "define" := Option.some.inj define
      have same := eq_form_of_expand .define (legible part (by simp)) (apart part (by simp)) head
      exact notDefine (congrArg some same)
  · intro parameters body lambda
    rcases parts with _ | ⟨head, _ | ⟨second, _ | ⟨third, _ | _⟩⟩⟩ <;> simp at lambda
    have same := eq_form_of_expand .lambda (legible head (by simp)) (apart head (by simp)) lambda.1
    subst same
    exact notLambda second third rfl

/-- Nothing local is free in a value that is written out, so substitution leaves it alone. -/
theorem expand_substitute_value (opened : ∀ name, isLocal name → IsOpen name) (formed : v.IsFormed)
    (legible : v.Obeys .legible) (apart : v.KeepsApart isLocal)
    (locals : ∀ name w, bindings name = some w → isLocal name) :
    v.expand = (v.expand.substitute bindings).expand := by
  have unbound : ∀ name ∈ v.expand.free, bindings name = none := by
    intro name free
    cases found : bindings name with
    | none => rfl
    | some w =>
      exact absurd (locals name w found) (Value.not_local opened legible apart name free)
  rw [substitute_of_free unbound, (Value.isBare_expand formed legible).expand]

/-- Written out before or after values are put in place of local names, a term comes to the same
in the end. -/
theorem expand_substitute (opened : ∀ name, isLocal name → IsOpen name) (formed : t.IsFormed)
    (legible : t.Obeys .legible) (apart : t.KeepsApart isLocal bound)
    (locals : ∀ name v, bindings name = some v → isLocal name) :
    (t.substitute bindings).expand = (t.expand.substitute bindings).expand := by
  induction t using Term.induction generalizing bound bindings with
  | atom text => rw [expand]
  | value v =>
    rw [isFormed_value] at formed
    rw [obeys_value] at legible
    cases apart with
    | value apart =>
      rw [Term.substitute, expand]
      exact expand_substitute_value opened formed legible apart locals
  | compound parts ih =>
    rw [isFormed_compound] at formed
    rw [obeys_compound] at legible
    have each (part : Term Value) (member : part ∈ parts) (apart : part.KeepsApart isLocal bound) :
        (part.substitute bindings).expand = (part.expand.substitute bindings).expand :=
      ih part member (formed part member) (legible part member) apart locals
    have whole (others : List (Term Value)) (fewer : others ⊆ parts)
        (apart : ∀ part ∈ others, part.KeepsApart isLocal bound) :
        (others.map (Term.substitute bindings)).map expand =
          ((others.map expand).map (Term.substitute bindings)).map expand := by
      simp only [List.map_map]
      exact List.map_congr_left fun part member => each part (fewer member) (apart part member)
    cases apart with
    | @lambda _ parameters body bare declared inside =>
      have same : (body.substitute (bindings.hide parameters.declared)).expand =
          (body.expand.substitute (bindings.hide parameters.declared)).expand :=
        ih body (by simp) (formed body (by simp)) (legible body (by simp)) inside
          fun name v hv => locals name v (Bindings.hide_eq_some hv)
      rw [expand_compound, List.map_cons, List.map_cons, List.map_singleton, expand, bare.expand,
        Term.substitute, Term.substitute, expand_compound, expand_compound]
      simp [same]
    | @define _ parts first others =>
      cases parts with
      | nil =>
        rw [Term.substitute, expand_compound, List.map_singleton, expand, Term.substitute,
          expand_compound, List.map_singleton, expand]
      | cons name parts =>
        have again := (isBare_expand (formed name (by simp)) (legible name (by simp))).expand
        rw [substitute_definition, expand_compound, expand_compound, List.map_cons, List.map_cons,
          List.map_cons, List.map_cons, expand, substitute_definition, expand_compound,
          List.map_cons, List.map_cons, again, whole parts (by simp) others, expand]
    | @equal _ arguments _ others =>
      have opened : bindings.AreOpen := fun name v hv => opened name (locals name v hv)
      rw [expand_compound, List.map_cons, expand, substitute_primitive opened,
        substitute_primitive opened, expand_compound, expand_compound, List.map_cons,
        List.map_cons, whole arguments (by simp) others]
    | parts notDefine notLambda others =>
      obtain ⟨notDefine', notLambda'⟩ := forms_map_expand legible others notDefine notLambda
      rw [expand_compound, substitute_parts _ notDefine notLambda,
        substitute_parts _ notDefine' notLambda', expand_compound, expand_compound,
        whole parts (List.Subset.refl _) others]

/-- What is put in place matters only as far as it is written out. -/
theorem expand_substitute_congr
    (same : ∀ name, (bindings name).map Value.expand = (bindings' name).map Value.expand) :
    (t.substitute bindings).expand = (t.substitute bindings').expand := by
  induction t using Term.induction generalizing bindings bindings' with
  | atom text =>
    have related := same text
    rw [Term.substitute, Term.substitute]
    generalize bindings text = found, bindings' text = found' at related
    cases found <;> cases found' <;> simp at related
    · rfl
    · rw [expand, expand, related]
  | value v => rw [Term.substitute, Term.substitute]
  | compound parts ih =>
    have each (others : List (Term Value)) (fewer : others ⊆ parts) :
        (others.map (Term.substitute bindings)).map expand =
          (others.map (Term.substitute bindings')).map expand := by
      simp only [List.map_map]
      exact List.map_congr_left fun part member => ih part (fewer member) same
    cases form parts with
    | lambda parameters body =>
      have hidden (name : String) : (bindings.hide parameters.declared name).map Value.expand =
          (bindings'.hide parameters.declared name).map Value.expand := by
        unfold Bindings.hide
        split
        · rfl
        · exact same name
      rw [substitute_lambda, substitute_lambda, expand_compound, expand_compound]
      simp [ih body (by simp) hidden]
    | alone => rw [substitute_alone, substitute_alone]
    | define name rest =>
      rw [substitute_definition, substitute_definition, expand_compound, expand_compound,
        List.map_cons, List.map_cons, List.map_cons, List.map_cons, each rest (by simp)]
    | parts notDefine notLambda =>
      rw [substitute_parts _ notDefine notLambda, substitute_parts _ notDefine notLambda,
        expand_compound, expand_compound, each parts (List.Subset.refl _)]

end Term
end KinQuery
