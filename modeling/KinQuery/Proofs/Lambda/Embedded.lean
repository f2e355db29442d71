import KinQuery.Proofs.Lambda.Likeness
import KinQuery.Proofs.Term.Expansion

/-! What the spelling of a term does not tell.

Written out, a person, a registered function or a lambda looks like a term that is not closed.
Terms are alike if they are the same once their values are written out, if such values stand at
the same places in both, and if no parameter in them bears the name of a primitive. -/
namespace KinQuery

open List (Forall₂)

mutual

/-- The persons, registered functions and lambdas in a value, at their places. -/
def Value.embedded : Value → Term Value
  | .list (item :: items) => .compound (.atom "" :: item.embedded :: Value.embeddedItems items)
  | .person p => .value (.person p)
  | .function (.host h) => .value (.function (.host h))
  | .function (.lambda serial parameters body) =>
    .value (.function (.lambda serial parameters body))
  | _ => .atom ""

def Value.embeddedItems : List Value → List (Term Value)
  | [] => []
  | item :: items => item.embedded :: Value.embeddedItems items

end

theorem Value.embeddedItems_eq_map (items : List Value) :
    embeddedItems items = items.map embedded := by
  induction items with
  | nil => simp [embeddedItems]
  | cons item items ih => simp [embeddedItems, ih]

namespace Term

mutual

/-- The persons, registered functions and lambdas in a term, at their places. -/
def embedded : Term Value → Term Value
  | .atom _ => .atom ""
  | .value v => v.embedded
  | .compound parts => .compound (embeddedParts parts)

def embeddedParts : List (Term Value) → List (Term Value)
  | [] => []
  | part :: parts => embedded part :: embeddedParts parts

end

theorem embeddedParts_eq_map (parts : List (Term Value)) :
    embeddedParts parts = parts.map embedded := by
  induction parts with
  | nil => simp [embeddedParts]
  | cons part parts ih => simp [embeddedParts, ih]

theorem embedded_compound (parts : List (Term Value)) :
    embedded (.compound parts) = .compound (parts.map embedded) := by
  rw [embedded, embeddedParts_eq_map]

/-- The parameters that the parts of a lambda term declare. -/
def declaredBy : List (Term Value) → List String
  | [.atom "lambda", parameters, _] => parameters.declared
  | _ => []

mutual

/-- The parameters of the lambda terms in a term, but for those of lambdas that are values. -/
def binders : Term Value → List String
  | .compound parts => declaredBy parts ++ bindersOfParts parts
  | _ => []

def bindersOfParts : List (Term Value) → List String
  | [] => []
  | part :: parts => binders part ++ bindersOfParts parts

end

theorem binders_subset {parts : List (Term Value)} {part : Term Value} (h : part ∈ parts) :
    part.binders ⊆ (compound parts).binders := by
  rw [binders]
  refine List.subset_append_of_subset_right _ ?_
  induction parts with
  | nil => cases h
  | cons first parts ih =>
    rw [bindersOfParts]
    rcases List.mem_cons.1 h with rfl | h
    · exact List.subset_append_left _ _
    · exact List.subset_append_of_subset_right _ (ih h)

theorem declared_subset_binders (parameters body : Term Value) :
    parameters.declared ⊆ (compound [.atom "lambda", parameters, body]).binders := by
  rw [binders]
  exact List.subset_append_left _ _

end Term

/-! ### Terms with the same values at the same places -/

/-- The terms are the same once their values are written out, and persons, registered functions
and lambdas stand at the same places in both. -/
structure Term.Concurs (t u : Term Value) : Prop where
  expand : t.expand = u.expand
  embedded : t.embedded = u.embedded

variable {t u parameters parameters' : Term Value} {parts others : List (Term Value)}
  {v w : Value} {items : List Value} {text : String} {names hidden : List String} {height : Nat}

namespace Term.Concurs

theorem symm (h : t.Concurs u) : u.Concurs t :=
  ⟨h.expand.symm, h.embedded.symm⟩

theorem trans {r : Term Value} (h : t.Concurs u) (h' : u.Concurs r) : t.Concurs r :=
  ⟨h.expand.trans h'.expand, h.embedded.trans h'.embedded⟩

theorem not_compound (h : (atom text).Concurs (compound parts)) : False := by
  have expand := h.expand
  rw [Term.expand, Term.expand] at expand
  cases expand

/-- The parts of compounds that concur do so one by one. -/
theorem each (h : (compound parts).Concurs (compound others)) : Forall₂ Concurs parts others := by
  obtain ⟨expand, embedded⟩ := h
  rw [expand_compound, expand_compound, compound.injEq] at expand
  rw [embedded_compound, embedded_compound, compound.injEq] at embedded
  induction parts generalizing others with
  | nil =>
    obtain rfl := List.map_eq_nil_iff.1 expand.symm
    exact .nil
  | cons part parts ih =>
    obtain ⟨other, others, rfl, first, rest⟩ := List.map_eq_cons_iff.1 expand.symm
    simp only [List.map_cons, List.cons.injEq] at embedded
    exact .cons ⟨first.symm, embedded.1⟩ (ih rest.symm embedded.2)

/-- A list that is a value concurs with the term that lists its items. -/
theorem list (nonempty : items ≠ []) :
    (Term.value (.list items)).Concurs (.compound (.atom "list" :: items.map .value)) := by
  have expanded : items.map (Term.expand ∘ .value) = items.map Value.expand := by simp [Term.expand]
  have embedded : items.map (Term.embedded ∘ .value) = items.map Value.embedded := by
    simp [Term.embedded]
  obtain ⟨item, rest, rfl⟩ := List.exists_cons_of_ne_nil nonempty
  constructor
  · rw [expand_compound, List.map_cons, List.map_map, expanded, Term.expand, Term.expand,
      Value.expand, Value.expandItems_eq_map, List.map_cons]
  · rw [embedded_compound, List.map_cons, List.map_map, embedded, Term.embedded, Term.embedded,
      Value.embedded, Value.embeddedItems_eq_map, List.map_cons]

end Term.Concurs

/-- A value is spelled by a word, is embedded as it is, or is a list of such values. -/
theorem Value.embedding (legible : v.Obeys .legible) :
    (v.IsWord ∧ (Term.value v).Concurs (.atom v.key)) ∨ (Term.value v).embedded = .value v ∨
      ∃ items, items ≠ [] ∧ v = .list items := by
  rcases v.isAtomic_or with atomic | ⟨item, items, rfl⟩ | ⟨p, rfl⟩ | ⟨serial, names, body, rfl⟩
  · rcases isWord_or_host legible atomic with word | ⟨h, rfl⟩
    · have place : v.embedded = .atom "" := by
        match v, word with
        | .list _, rfl | .boolean _, _ | .numeral _, _ | .string _, _ | .date _, _
        | .function (.primitive _), _ | .void, _ => rw [embedded] <;> simp
      refine .inl ⟨word, ?_, ?_⟩
      · rw [Term.expand, Term.expand, expand_of_isAtomic atomic]
      · rw [Term.embedded, Term.embedded, place]
    · exact .inr (.inl (by rw [Term.embedded, embedded]))
  · exact .inr (.inr ⟨item :: items, by simp, rfl⟩)
  · exact .inr (.inl (by rw [Term.embedded, embedded]))
  · exact .inr (.inl (by rw [Term.embedded, embedded]))

/-! ### Words -/

namespace Term.Concurs

/-- Only the atom itself, and a value that it spells, concur with an atom. -/
theorem atom_cases (legible : t.Obeys .legible) (h : t.Concurs (.atom text)) :
    t = .atom text ∨ ∃ v : Value, t = .value v ∧ v.IsWord ∧ v.key = text := by
  cases t with
  | atom other =>
    have expand := h.expand
    rw [Term.expand, Term.expand] at expand
    exact .inl expand
  | compound parts => exact h.symm.not_compound.elim
  | value v =>
    rw [Term.obeys_value] at legible
    rcases Value.embedding legible with ⟨word, same⟩ | itself | ⟨items, nonempty, rfl⟩
    · have expand := (same.symm.trans h).expand
      rw [Term.expand, Term.expand] at expand
      exact .inr ⟨v, rfl, word, Term.atom.inj expand⟩
    · have embedded := h.embedded
      rw [itself, Term.embedded] at embedded
      cases embedded
    · exact (h.symm.trans (.list nonempty)).not_compound.elim

theorem primitive (p : Primitive) :
    (Term.value (.function (.primitive p))).Concurs (.atom p.name) := by
  constructor
  · have atomic : (Value.function (.primitive p)).IsAtomic := trivial
    rw [Term.expand, Term.expand, Value.expand_of_isAtomic atomic, Value.key, Value.spell]
  · rw [Term.embedded, Term.embedded, Value.embedded] <;> simp

theorem eq_form {form : SpecialForm} (special : SpecialForm.ofWord? text = some form)
    (legible : t.Obeys .legible) (h : t.Concurs (.atom text)) : t = .atom text := by
  rcases h.atom_cases legible with same | ⟨v, rfl, word, rfl⟩
  · exact same
  · rw [word.ofWord?_key] at special
    cases special

/-- A proper name that no primitive bears is the word of no value. -/
theorem eq_name (proper : IsProper text) (free : Primitive.ofName? text = none)
    (legible : t.Obeys .legible) (h : t.Concurs (.atom text)) : t = .atom text := by
  rcases h.atom_cases legible with same | ⟨v, rfl, word, rfl⟩
  · exact same
  · exact absurd rfl (word.key_ne proper free)

end Term.Concurs

/-! ### Values -/

theorem forall₂_of_concurs_list {others : List Value} (nonempty : items ≠ [])
    (nonempty' : others ≠ []) (h : (Term.value (.list items)).Concurs (.value (.list others))) :
    Forall₂ (fun v w => (Term.value v).Concurs (.value w)) items others := by
  have each := ((Term.Concurs.list nonempty).symm.trans (h.trans (.list nonempty'))).each
  have rest := (List.forall₂_cons.1 each).2
  rwa [List.forall₂_map_left_iff, List.forall₂_map_right_iff] at rest

/-- A value that is no list concurs with a value only if it is that value. -/
theorem Value.eq_of_concurs_of_ne_list (legible : v.Obeys .legible) (legible' : w.Obeys .legible)
    (h : (Term.value v).Concurs (.value w)) (other : ∀ items, items ≠ [] → v ≠ .list items) :
    v = w := by
  rcases Value.embedding legible with ⟨word, same⟩ | itself | ⟨items, nonempty, rfl⟩
  · have spelled := (h.symm.trans same).atom_cases (Term.obeys_value.2 legible')
    rcases spelled with other | ⟨_, rest, word', key⟩
    · cases other
    · cases rest
      exact word.eq_of_key word' key.symm
  · have place := itself.symm.trans h.embedded
    rcases Value.embedding legible' with ⟨-, same⟩ | itself' | ⟨items, nonempty, rfl⟩
    · rw [same.embedded, Term.embedded] at place
      cases place
    · rw [itself'] at place
      exact Term.value.inj place
    · rw [(Term.Concurs.list nonempty).embedded, Term.embedded] at place
      cases place
  · exact absurd rfl (other items nonempty)

mutual

/-- No two values concur. -/
theorem Value.eq_of_concurs : ∀ {v w : Value}, v.Obeys .legible → w.Obeys .legible →
    (Term.value v).Concurs (.value w) → v = w
  | .list (item :: items), w, legible, legible', h => by
    rcases Value.embedding legible' with ⟨-, same⟩ | itself | ⟨others, nonempty, rfl⟩
    · exact (same.symm.trans (h.symm.trans (.list (by simp)))).not_compound.elim
    · have place := (Term.Concurs.list (by simp)).symm.embedded.trans (h.embedded.trans itself)
      rw [Term.embedded] at place
      cases place
    · rw [Value.obeys_list] at legible legible'
      rw [Value.eq_of_concurs_items legible legible'
        (forall₂_of_concurs_list (by simp) nonempty h)]
  | .list [], _, legible, legible', h | .boolean _, _, legible, legible', h
  | .numeral _, _, legible, legible', h | .string _, _, legible, legible', h
  | .date _, _, legible, legible', h | .person _, _, legible, legible', h
  | .function _, _, legible, legible', h | .void, _, legible, legible', h =>
    Value.eq_of_concurs_of_ne_list legible legible' h (by simp)

theorem Value.eq_of_concurs_items : ∀ {items others : List Value},
    (∀ item ∈ items, item.Obeys .legible) → (∀ item ∈ others, item.Obeys .legible) →
      Forall₂ (fun v w => (Term.value v).Concurs (.value w)) items others → items = others
  | [], _, _, _, .nil => rfl
  | item :: items, _, legible, legible', .cons first rest => by
    obtain ⟨now, later⟩ := List.forall_mem_cons.1 legible
    obtain ⟨now', later'⟩ := List.forall_mem_cons.1 legible'
    rw [Value.eq_of_concurs now now' first, Value.eq_of_concurs_items later later' rest]

end

/-- A term that concurs with a value spells it. -/
theorem Spells.of_concurs (free : ∀ w : Value, w.IsWord → w.key ∉ hidden)
    (legible : t.Obeys .legible) (legible' : v.Obeys .legible) (h : t.Concurs (.value v)) :
    Spells hidden t v := by
  induction t using Term.induction generalizing v with
  | atom text =>
    rcases h.symm.atom_cases (Term.obeys_value.2 legible') with other | ⟨_, same, word, rfl⟩
    · cases other
    · cases same
      exact .word word (free v word)
  | value w =>
    rw [Value.eq_of_concurs (Term.obeys_value.1 legible) legible' h]
    exact .value v
  | compound parts ih =>
    rw [Term.obeys_compound] at legible
    rcases Value.embedding legible' with ⟨-, same⟩ | itself | ⟨items, nonempty, rfl⟩
    · exact (same.symm.trans h.symm).not_compound.elim
    · have place := h.embedded.trans itself
      rw [Term.embedded] at place
      cases place
    · obtain _ | ⟨first, rest⟩ := (h.trans (.list nonempty)).each
      obtain ⟨now, later⟩ := List.forall_mem_cons.1 legible
      rw [List.forall₂_map_right_iff, List.forall₂_iff_zip] at rest
      rw [Value.obeys_list] at legible'
      have primitive := first.trans (Term.Concurs.primitive .list).symm
      refine .list (ih _ List.mem_cons_self now trivial primitive) nonempty ?_
      refine List.forall₂_iff_zip.2 ⟨rest.1, fun {part item} pair => ?_⟩
      obtain ⟨inside, inside'⟩ := List.of_mem_zip pair
      exact ih part (List.mem_cons_of_mem _ inside) (later part inside) (legible' item inside')
        (rest.2 pair)

/-! ### Parameters -/

/-- What concurs with a list of parameters, none of them a primitive's name, is that list. -/
theorem Term.Concurs.eq_parameters (proper : ∀ name ∈ names, IsProper name)
    (free : ∀ name ∈ names, Primitive.ofName? name = none) (legible : t.Obeys .legible)
    (h : t.Concurs (.compound (names.map .atom))) : t = .compound (names.map .atom) := by
  cases t with
  | atom text => exact h.not_compound.elim
  | value v =>
    rw [Term.obeys_value] at legible
    rcases Value.embedding legible with ⟨-, same⟩ | itself | ⟨items, nonempty, rfl⟩
    · exact (same.symm.trans h).not_compound.elim
    · have place := itself.symm.trans h.embedded
      rw [Term.embedded] at place
      cases place
    · have each := ((Term.Concurs.list nonempty).symm.trans h).each
      cases names with
      | nil => cases each
      | cons name names =>
        have spelled := (List.forall₂_cons.1 each).1.expand
        rw [Term.expand, Term.expand] at spelled
        cases spelled
        cases free "list" List.mem_cons_self
  | compound parts =>
    have each := h.each
    rw [List.forall₂_map_right_iff] at each
    rw [Term.obeys_compound] at legible
    have same : Forall₂ (fun part name => part = Term.atom name) parts names := by
      rw [List.forall₂_iff_zip] at each ⊢
      refine ⟨each.1, fun {part name} pair => ?_⟩
      obtain ⟨inside, inside'⟩ := List.of_mem_zip pair
      exact (each.2 pair).eq_name (proper name inside') (free name inside') (legible part inside)
    rw [← List.forall₂_map_right_iff, List.forall₂_eq_eq_eq] at same
    rw [same]

/-! ### Likeness -/

/-- The term could have been read, its values can be told apart by their keys, and no parameter
in it bears the name of a primitive. -/
structure Term.IsClear (t : Term Value) : Prop where
  formed : t.IsFormed
  legible : t.Obeys .legible
  free : ∀ name ∈ t.binders, Primitive.ofName? name = none

theorem Term.IsClear.part (h : (Term.compound parts).IsClear) (member : t ∈ parts) : t.IsClear where
  formed := Term.isFormed_compound.1 h.formed t member
  legible := Term.obeys_compound.1 h.legible t member
  free name inside := h.free name (Term.binders_subset member inside)

theorem Term.IsClear.declared {body : Term Value}
    (h : (Term.compound [.atom "lambda", parameters, body]).IsClear) :
    ∀ name ∈ parameters.declared, Primitive.ofName? name = none :=
  fun name inside => h.free name (Term.declared_subset_binders parameters body inside)

namespace TermLike

/-- Lambda terms that concur have the same parameters, or both are refused. -/
theorem lambda_of_concurs {body other : Term Value}
    (clear : (Term.compound [.atom "lambda", parameters, body]).IsClear)
    (clear' : (Term.compound [.atom "lambda", parameters', other]).IsClear)
    (h : parameters.Concurs parameters')
    (inside : ∀ names : List String, (∀ name ∈ names, IsProper name) →
      (∀ name ∈ names, Primitive.ofName? name = none) →
        TermLike height (names ++ hidden) body other) :
    TermLike height hidden (.compound [.atom "lambda", parameters, body])
      (.compound [.atom "lambda", parameters', other]) := by
  have accepted (names : List String) (proper : ∀ name ∈ names, IsProper name)
      (free : ∀ name ∈ names, Primitive.ofName? name = none) :
      TermLike height hidden (.compound [.atom "lambda", .compound (names.map .atom), body])
        (.compound [.atom "lambda", .compound (names.map .atom), other]) := by
    refine .lambda _ ?_
    rw [Term.declared_atoms]
    exact inside names proper free
  have legible := (clear.part (t := parameters) (by simp)).legible
  have legible' := (clear'.part (t := parameters') (by simp)).legible
  have free := clear.declared
  have free' := clear'.declared
  rcases parameters.isRefused_or with refused | ⟨names, rfl, proper⟩
  · rcases parameters'.isRefused_or with refused' | ⟨names, rfl, proper⟩
    · exact .refused body other refused refused'
    · rw [Term.declared_atoms] at free'
      rw [h.eq_parameters proper free' legible]
      exact accepted names proper free'
  · rw [Term.declared_atoms] at free
    rw [h.symm.eq_parameters proper free legible']
    exact accepted names proper free

/-- Terms that concur are alike. -/
theorem of_concurs (clear : t.IsClear) (clear' : u.IsClear)
    (apart : ∀ w : Value, w.IsWord → w.key ∉ hidden) (below : t.height ≤ height)
    (h : t.Concurs u) : TermLike height hidden t u := by
  induction t using Term.induction generalizing u hidden with
  | atom text =>
    rcases h.symm.atom_cases clear'.legible with rfl | ⟨v, rfl, word, rfl⟩
    · exact .atom text
    · have formed := Term.isFormed_value.1 clear'.formed
      exact .spelled (.word word (apart v word)) below (ValueLike.refl formed)
  | value v =>
    have legible := Term.obeys_value.1 clear.legible
    exact .spelling (.of_concurs apart clear'.legible legible h.symm)
      (ValueLike.refl (Term.isFormed_value.1 clear.formed))
  | compound parts ih =>
    cases u with
    | atom text => exact h.symm.not_compound.elim
    | value v =>
      have legible := Term.obeys_value.1 clear'.legible
      exact .spelled (.of_concurs apart clear.legible legible h) below
        (ValueLike.refl (Term.isFormed_value.1 clear'.formed))
    | compound others =>
      have each := h.each
      have lower {part : Term Value} (member : part ∈ parts) : part.height ≤ height := by
        have := Term.height_lt member
        omega
      by_cases define : others.head? = some (.atom "define")
      · refine .define ?_ define
        obtain _ | ⟨first, _⟩ := each
        · cases define
        · obtain rfl := Option.some.inj define
          have legible := (clear.part List.mem_cons_self).legible
          rw [first.eq_form (SpecialForm.ofWord?_word .define) legible]
          rfl
      · by_cases lambda : ∃ parameters body, others = [.atom "lambda", parameters, body]
        · obtain ⟨parameters', other, rfl⟩ := lambda
          obtain _ | ⟨first, _ | ⟨second, _ | ⟨third, _ | _⟩⟩⟩ := each
          obtain rfl := first.eq_form (SpecialForm.ofWord?_word .lambda)
            (clear.part List.mem_cons_self).legible
          refine lambda_of_concurs clear clear' second fun names proper free => ?_
          refine ih _ (by simp) (clear.part (by simp)) (clear'.part (by simp)) (fun w word => ?_)
            (lower (by simp)) third
          rw [List.mem_append, not_or]
          exact ⟨fun inside => word.key_ne (proper _ inside) (free _ inside) rfl, apart w word⟩
        · refine .of_forall₂ define (fun parameters body same => lambda ⟨parameters, body, same⟩) ?_
          rw [List.forall₂_iff_zip] at each ⊢
          refine ⟨each.1, fun {part other} pair => ?_⟩
          obtain ⟨member, member'⟩ := List.of_mem_zip pair
          exact ih part member (clear.part member) (clear'.part member') apart (lower member)
            (each.2 pair)

end TermLike
end KinQuery
