import KinQuery.Proofs.Caching.Resembling

/-! Terms that are written out alike, part by part.

A compound resembles compounds of the same form, whose parts resemble its own. Where one term
holds a value, the other may spell it: a word for an atomic value, a list item by item, a lambda
by its parameters and its body. No term spells a person. -/
namespace KinQuery

open List (Forall₂)

variable {C : Convention} {v w : Value} {t u : Term Value} {text : String} {items : List Value}
  {parts others arguments : List (Term Value)} {head : Term Value} {names : List String}
  {body other : Term Value}

/-- Compounds of one form, with parts that resemble each other. -/
inductive Term.Counterpart (C : Convention) : List (Term Value) → List (Term Value) → Prop
  | define {parts others : List (Term Value)} : parts.head? = some (.atom "define") →
      others.head? = some (.atom "define") → Counterpart C parts others
  | lambda {parameters body other : Term Value} :
      (∀ name ∈ parameters.declared, IsProper name → C.isLocal name) →
        body.IsTidy C parameters.declared → other.IsTidy C parameters.declared →
          body.expand = other.expand →
            Counterpart C [.atom "lambda", parameters, body] [.atom "lambda", parameters, other]
  | equal {arguments arguments' : List (Term Value)} :
      (arguments.length = 2 → ∃ t ∈ arguments, t.YieldsPlain) →
        Forall₂ (Term.Resembles C) arguments arguments' →
          Counterpart C (.atom Primitive.equal.name :: arguments)
            (.atom Primitive.equal.name :: arguments')
  | parts {parts others : List (Term Value)} : parts.head? ≠ some (.atom "define") →
      (∀ parameters body, parts ≠ [.atom "lambda", parameters, body]) →
        (∀ parameters body, others ≠ [.atom "lambda", parameters, body]) →
          Forall₂ (Term.Resembles C) parts others → Counterpart C parts others

/-- A word that names a primitive names one that resembles itself. -/
theorem Term.IsTidy.of_ofName? {p : Primitive} (tidy : (Term.atom text).IsTidy C [])
    (h : Primitive.ofName? text = some p) :
    p.name = text ∧ (Function.primitive p).Resembles C (.primitive p) := by
  have spelled : p.name = text := by simpa using List.find?_some h
  have other : p ≠ .equal := by
    rintro rfl
    cases tidy.apart with
    | atom other _ => exact other spelled.symm
  have pure : p ≠ .putKinshipTerm := by
    rintro rfl
    exact (Term.obeys_atom.1 tidy.obeys).not_put spelled.symm
  exact ⟨spelled, .primitive other pure⟩

namespace Term.Resembles

theorem refl (tidy : t.IsTidy C []) : t.Resembles C t :=
  ⟨tidy, tidy, rfl⟩

theorem symm (h : t.Resembles C u) : u.Resembles C t :=
  ⟨h.right, h.left, h.expand.symm⟩

theorem value_iff : (Term.value v).Resembles C (.value w) ↔ v.Resembles C w := by
  refine ⟨fun h => ⟨IsTidy.value_iff.1 h.left, IsTidy.value_iff.1 h.right, ?_⟩, fun h =>
    ⟨IsTidy.value_iff.2 h.left, IsTidy.value_iff.2 h.right, ?_⟩⟩
  · simpa only [Term.expand] using h.expand
  · simpa only [Term.expand] using h.expand

/-- A word resembles itself and the value that it spells. -/
theorem atom_cases (h : (Term.atom text).Resembles C u) :
    u = .atom text ∨ ∃ v : Value, u = .value v ∧ v.IsWord ∧ v.key = text := by
  have expand := h.expand
  rw [Term.expand] at expand
  exact eq_atom_of_expand h.right.legible h.right.apart expand.symm

/-- An empty list is a word. -/
theorem ne_nil (h : (Term.value (.list items)).Resembles C (.compound parts)) : items ≠ [] := by
  rintro rfl
  have written := h.expand
  have atomic : (Value.list []).IsAtomic := trivial
  rw [Term.expand, Value.expand_of_isAtomic atomic, Term.expand_compound] at written
  cases written

theorem form_eq (h : t.Resembles C u) :
    t.atom?.bind SpecialForm.ofWord? = u.atom?.bind SpecialForm.ofWord? := by
  have atom {t u : Term Value} (text : String) (same : t = .atom text) (h : t.Resembles C u) :
      t.atom?.bind SpecialForm.ofWord? = u.atom?.bind SpecialForm.ofWord? := by
    subst same
    rcases h.atom_cases with rfl | ⟨v, rfl, word, rfl⟩
    · rfl
    · exact word.ofWord?_key
  cases t with
  | atom text => exact atom text rfl h
  | value v =>
    cases u with
    | atom text => exact (atom text rfl h.symm).symm
    | _ => rfl
  | compound parts =>
    cases u with
    | atom text => exact (atom text rfl h.symm).symm
    | _ => rfl

end Term.Resembles

/-! ### Compounds -/

namespace Term

/-- Words of special forms, and that of the primitive that compares, spell no tidy value. -/
theorem IsTidy.head_eq (h : (compound (head :: arguments)).IsTidy C [])
    (fixed : (∃ form : SpecialForm, form.word = text) ∨ Primitive.equal.name = text)
    (same : head.expand = .atom text) : head = .atom text := by
  have apart := h.apart
  cases apart with
  | lambda _ _ _ => rwa [expand] at same
  | define _ _ => rwa [expand] at same
  | equal _ _ => rwa [expand] at same
  | parts _ _ each =>
    have tidy : head.IsTidy C [] := h.part (by simp) (each head (by simp))
    rcases fixed with ⟨form, rfl⟩ | rfl
    · exact eq_form_of_expand form tidy.legible tidy.apart same
    rcases eq_atom_of_expand tidy.legible tidy.apart same with rfl | ⟨v, rfl, word, key⟩
    · rfl
    · rw [word.eq_primitive_of_key key] at tidy
      rcases (IsTidy.value_iff.1 tidy).function_cases with ⟨p, same, other, -⟩ | ⟨_, _, _, same, -⟩
      · cases same
        exact absurd rfl other
      · cases same

theorem forall₂_resembles (left : ∀ part ∈ parts, part.IsTidy C [])
    (right : ∀ part ∈ others, part.IsTidy C []) (same : parts.map expand = others.map expand) :
    Forall₂ (Term.Resembles C) parts others := by
  induction parts generalizing others with
  | nil =>
    obtain rfl := List.map_eq_nil_iff.1 same.symm
    exact .nil
  | cons part parts ih =>
    obtain ⟨other, others, rfl, first, rest⟩ := List.map_eq_cons_iff.1 same.symm
    obtain ⟨now, later⟩ := List.forall_mem_cons.1 left
    obtain ⟨now', later'⟩ := List.forall_mem_cons.1 right
    exact .cons ⟨now, now', first.symm⟩ (ih later later' rest.symm)

theorem IsTidy.eq_lambda {parameters : Term Value} (h : (compound parts).IsTidy C [])
    (same : parts.map expand = [.atom "lambda", parameters, body]) :
    ∃ other, parts = [.atom "lambda", parameters, other] ∧
      (∀ name ∈ parameters.declared, IsProper name → C.isLocal name) ∧
        other.IsTidy C parameters.declared ∧ other.expand = body := by
  obtain ⟨head, _, rfl, first, rest⟩ := List.map_eq_cons_iff.1 same
  obtain ⟨declared, _, rfl, second, rest⟩ := List.map_eq_cons_iff.1 rest
  obtain ⟨other, _, rfl, third, rest⟩ := List.map_eq_cons_iff.1 rest
  obtain rfl := List.map_eq_nil_iff.1 rest
  have apart := h.apart
  cases apart with
  | lambda bare locals inside =>
    rw [bare.expand] at second
    subst second
    rw [List.append_nil] at inside
    exact ⟨other, rfl, locals, h.part (by simp) inside, third⟩
  | define _ _ => simp [expand] at first
  | equal _ _ => simp [expand, Primitive.name] at first
  | parts _ notLambda _ =>
    obtain rfl := h.head_eq (.inl ⟨.lambda, rfl⟩) first
    exact absurd rfl (notLambda _ _)

theorem IsTidy.eq_define {rest : List (Term Value)} (h : (compound parts).IsTidy C [])
    (same : parts.map expand = .atom "define" :: rest) : parts.head? = some (.atom "define") := by
  obtain ⟨head, others, rfl, first, -⟩ := List.map_eq_cons_iff.1 same
  rw [h.head_eq (.inl ⟨.define, rfl⟩) first]
  rfl

/-- The primitive that compares is at the head of compounds, and in no other place. -/
theorem IsTidy.compared (h : (compound (.atom Primitive.equal.name :: arguments)).IsTidy C []) :
    (arguments.length = 2 → ∃ t ∈ arguments, t.YieldsPlain) ∧ ∀ t ∈ arguments, t.IsTidy C [] := by
  generalize same : Primitive.equal.name = text at h
  have apart := h.apart
  cases apart with
  | lambda _ _ _ => exact absurd same (name_ne_form .equal .lambda)
  | define _ _ => exact absurd same (name_ne_form .equal .define)
  | equal plain each => exact ⟨plain, fun t ht => h.part (by simp [ht]) (each t ht)⟩
  | parts _ _ each =>
    have first := each _ List.mem_cons_self
    cases first with
    | atom other _ => exact absurd same.symm other

theorem IsTidy.eq_equal {rest : List (Term Value)} (h : (compound parts).IsTidy C [])
    (same : parts.map expand = .atom Primitive.equal.name :: rest) :
    ∃ arguments, parts = .atom Primitive.equal.name :: arguments ∧
      (∀ t ∈ arguments, t.IsTidy C []) ∧ arguments.map expand = rest := by
  obtain ⟨head, arguments, rfl, first, rest⟩ := List.map_eq_cons_iff.1 same
  obtain rfl := h.head_eq (.inr rfl) first
  exact ⟨arguments, rfl, h.compared.2, rest⟩

/-- Compounds that resemble each other have one form. -/
theorem Resembles.counterpart (h : (compound parts).Resembles C (compound others)) :
    Counterpart C parts others := by
  obtain ⟨left, right, same⟩ := h
  rw [expand_compound, expand_compound, compound.injEq] at same
  have apart := left.apart
  have apart' := right.apart
  cases apart with
  | @lambda _ parameters body bare locals inside =>
    rw [List.append_nil] at inside
    rw [List.map_cons, List.map_cons, List.map_singleton, Term.expand, bare.expand] at same
    obtain ⟨other, rfl, -, tidy, written⟩ := right.eq_lambda same.symm
    exact .lambda locals (left.part (by simp) inside) tidy written.symm
  | @define _ rest _ _ =>
    rw [List.map_cons, Term.expand] at same
    exact .define rfl (right.eq_define same.symm)
  | @equal _ arguments plain each =>
    rw [List.map_cons, Term.expand] at same
    obtain ⟨arguments', rfl, tidy, written⟩ := right.eq_equal same.symm
    refine .equal plain (forall₂_resembles (fun t ht => ?_) tidy written.symm)
    exact left.part (by simp [ht]) (each t ht)
  | parts notDefine notLambda each =>
    cases apart' with
    | @lambda _ parameters body bare _ _ =>
      rw [List.map_cons, List.map_cons, List.map_singleton, Term.expand, bare.expand] at same
      obtain ⟨other, rfl, -⟩ := left.eq_lambda same
      exact absurd rfl (notLambda parameters other)
    | define _ _ =>
      rw [List.map_cons, Term.expand] at same
      exact absurd (left.eq_define same) notDefine
    | equal _ _ =>
      rw [List.map_cons, Term.expand] at same
      obtain ⟨arguments, rfl, -⟩ := left.eq_equal same
      have first := each _ List.mem_cons_self
      cases first with
      | atom other _ => exact absurd rfl other
    | parts _ notLambda' each' =>
      have tidy (t : Term Value) (ht : t ∈ parts) : t.IsTidy C [] := left.part ht (each t ht)
      have tidy' (t : Term Value) (ht : t ∈ others) : t.IsTidy C [] := right.part ht (each' t ht)
      exact .parts notDefine notLambda notLambda' (forall₂_resembles tidy tidy' same)

/-! ### Values that are spelled -/

/-- What a tidy term is written as marks no person. -/
theorem IsTidy.expand_ne_mark {bound : List String} (tidy : t.IsTidy C bound) (id : PersonId) :
    t.expand ≠ .atom ("#" ++ toString id) := by
  have mark : ("#" ++ toString id).toList.head? = some '#' := by simp [String.toList_append]
  intro same
  rcases eq_atom_of_expand tidy.legible tidy.apart same with rfl | ⟨v, -, word, key⟩
  · exact (obeys_atom.1 tidy.obeys).not_mark mark
  · exact word.not_mark (key ▸ mark)

/-- The compound spells the value, part by part. -/
inductive Spelling (C : Convention) : Value → List (Term Value) → Prop
  | list {items : List Value} {parts : List (Term Value)} :
      Forall₂ (Term.Resembles C) (.value (.function (.primitive .list)) :: items.map .value) parts →
        Spelling C (.list items) parts
  | lambda (serial : Nat) {names : List String} {body other : Term Value} :
      declareParameters [] (names.map .atom) = .ok names → (∀ name ∈ names, C.isLocal name) →
        body.IsTidy C names → other.IsTidy C names → body.expand = other.expand →
          Spelling C (.function (.lambda serial names body))
            [.atom "lambda", .compound (names.map .atom), other]

/-- A compound that is no special form resembles by its parts. -/
theorem IsTidy.parts_of_head {text : String} {rest : List (Term Value)}
    (h : (compound parts).IsTidy C []) (same : parts.map expand = .atom text :: rest)
    (notForm : ∀ form : SpecialForm, form.word ≠ text) (notEqual : Primitive.equal.name ≠ text) :
    ∀ part ∈ parts, part.IsTidy C [] := by
  have apart := h.apart
  cases apart with
  | lambda _ _ _ =>
    rw [List.map_cons, expand] at same
    exact absurd (atom.inj (List.cons.inj same).1) (notForm .lambda)
  | define _ _ =>
    rw [List.map_cons, expand] at same
    exact absurd (atom.inj (List.cons.inj same).1) (notForm .define)
  | equal _ _ =>
    rw [List.map_cons, expand] at same
    exact absurd (atom.inj (List.cons.inj same).1) notEqual
  | parts _ _ each => exact fun part member => h.part member (each part member)

theorem Resembles.spelling (h : (Term.value v).Resembles C (compound parts)) :
    Spelling C v parts := by
  obtain ⟨left, right, same⟩ := h
  rw [IsTidy.value_iff] at left
  rw [expand_compound, Term.expand] at same
  rcases v.isAtomic_or with atomic | ⟨item, items, rfl⟩ | ⟨p, rfl⟩ | ⟨serial, names, body, rfl⟩
  · rw [Value.expand_of_isAtomic atomic] at same
    cases same
  · rw [Value.expand, Value.expandItems_eq_map, compound.injEq] at same
    have notForm (form : SpecialForm) := (name_ne_form .list form).symm
    have tidy := right.parts_of_head same.symm notForm (by decide)
    have list : (Value.function (.primitive .list)).IsTidy C :=
      .primitive (by decide) (by decide)
    refine .list (forall₂_resembles (List.forall_mem_cons.2 ⟨IsTidy.value_iff.2 list, ?_⟩) tidy ?_)
    · intro part member
      obtain ⟨x, inside, rfl⟩ := List.mem_map.1 member
      exact IsTidy.value_iff.2 (Value.IsTidy.list_iff.1 left x inside)
    · have atomic : (Value.function (.primitive .list)).IsAtomic := trivial
      have word : (Term.value (.function (.primitive .list))).expand = .atom "list" := by
        rw [Term.expand, Value.expand_of_isAtomic atomic, Value.key, Value.spell, Primitive.name]
      rw [List.map_cons, word, List.map_map, ← same, List.map_cons]
      simp [Term.expand]
  · -- The mark in the key of a person is no tidy word.
    rw [Value.expand, compound.injEq] at same
    have notForm (form : SpecialForm) := (name_ne_form .person form).symm
    have tidy := right.parts_of_head same.symm notForm (by decide)
    obtain ⟨_, _, rfl, -, rest⟩ := List.map_eq_cons_iff.1 same.symm
    obtain ⟨mark, _, rfl, marked, -⟩ := List.map_eq_cons_iff.1 rest
    exact absurd marked ((tidy mark (by simp)).expand_ne_mark p.id)
  · rw [Value.expand, compound.injEq] at same
    obtain ⟨other, rfl, -, tidy', written⟩ := right.eq_lambda same.symm
    rcases left.function_cases with ⟨p, primitive, -⟩ | ⟨_, _, _, made, declared, locals, tidy⟩
    · cases primitive
    · cases made
      rw [declared_atoms] at tidy'
      exact .lambda serial declared locals tidy tidy' written.symm

end Term
end KinQuery
