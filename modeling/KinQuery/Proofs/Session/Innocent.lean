import KinQuery.Proofs.Evaluation.Spelled

/-! Which terms can change the dictionary shows in their keys.

A term that holds `put-kinship-term`, by this word or as a value, still does once its values
are written out, and one that does not never comes to. So of two terms with the same key both
are plain or none is. -/
namespace KinQuery

variable {c : Session} {v : Value} {t u : Term Value} {name : String} {w : World}
  {atom : String → Prop}

/-- Atoms of plain terms, and of the spellings of plain values. -/
def Vocabulary.innocent (c : Session) : Vocabulary where
  atom text := text ≠ Primitive.putKinshipTerm.name ∧
    ∀ v, c.definition? text = some v → v.IsPlainIn c.world
  leaf _ := True
  lambda := True

/-! ### Spelled values -/

namespace Session.IsSober

theorem innocent_of_undefined (ne : name ≠ Primitive.putKinshipTerm.name)
    (undefined : c.definition? name = none) : (Vocabulary.innocent c).atom name :=
  ⟨ne, fun v hv => by rw [undefined] at hv; cases hv⟩

theorem innocent_primitive (hc : c.IsSober) {p : Primitive} (ne : p ≠ .putKinshipTerm) :
    (Vocabulary.innocent c).atom p.name := by
  refine innocent_of_undefined (fun same => ?_) ?_
  · have known := p.ofName?_name
    rw [same, Primitive.ofName?_name] at known
    exact ne (Option.some.inj known).symm
  · cases hv : c.definition? p.name with
    | none => rfl
    | some v =>
      have other := (hc.isReference_of_definition? hv).2.2
      rw [p.ofName?_name] at other
      cases other

theorem innocent_mark (hc : c.IsSober) (id : PersonId) :
    (Vocabulary.innocent c).atom ("#" ++ toString id) := by
  have mark : ("#" ++ toString id).toList.head? = some '#' := by simp [String.toList_append]
  refine innocent_of_undefined (fun same => ?_) ?_
  · rw [same] at mark
    exact absurd mark (by decide)
  · cases hv : c.definition? ("#" ++ toString id) with
    | none => rfl
    | some v =>
      obtain ⟨first, rest, spelled, letter⟩ :=
        toList_of_isReference (hc.isReference_of_definition? hv).1
      rw [spelled] at mark
      cases mark
      exact absurd letter (by decide)

theorem innocent_key (hc : c.IsSober) (plain : v.IsPlainIn c.world) (atomic : v.IsAtomic) :
    (Vocabulary.innocent c).atom v.key := by
  have answer := (Value.IsSpelled.isWord plain atomic).atomAnswer_key c
  constructor
  · intro same
    rw [same, hc.atomAnswer_primitive] at answer
    cases answer
    obtain ⟨p, hp, ne⟩ := Value.isSpelled_function.1 plain
    cases hp
    exact ne rfl
  · intro u hu
    rw [hc.atomAnswer_of_definition? hu] at answer
    cases answer
    exact plain

end Session.IsSober

theorem Value.innocent_expand_of_isAtomic (hc : c.IsSober) (plain : v.IsPlainIn c.world)
    (atomic : v.IsAtomic) : v.expand.Obeys (.innocent c) := by
  rw [expand_of_isAtomic atomic]
  exact Term.obeys_atom.2 (hc.innocent_key plain atomic)

mutual

theorem Value.innocent_expand (hc : c.IsSober) : ∀ {v : Value}, v.IsPlainIn c.world →
    v.expand.Obeys (.innocent c)
  | .list (item :: items), h => by
    have each := Value.obeys_list.1 h
    obtain ⟨first, rest⟩ := List.forall_mem_cons.1 each
    have list : (Vocabulary.innocent c).atom "list" := hc.innocent_primitive (p := .list) (by decide)
    rw [expand, Term.obeys_compound, List.forall_mem_cons, List.forall_mem_cons]
    exact ⟨Term.obeys_atom.2 list, innocent_expand hc first, innocent_expandItems hc rest⟩
  | .person p, _ => by
    have person : (Vocabulary.innocent c).atom "person" :=
      hc.innocent_primitive (p := .person) (by decide)
    rw [expand, Term.obeys_compound]
    simpa using ⟨person, hc.innocent_mark p.id⟩
  | .list [], h | .boolean _, h | .numeral _, h | .string _, h | .date _, h
  | .function (.primitive _), h | .function (.host _), h | .void, h =>
    innocent_expand_of_isAtomic hc h trivial
  | .function (.lambda ..), h => by
    obtain ⟨p, hp, -⟩ := Value.isSpelled_function.1 h
    cases hp

theorem Value.innocent_expandItems (hc : c.IsSober) : ∀ {items : List Value},
    (∀ item ∈ items, item.IsPlainIn c.world) → ∀ part ∈ expandItems items, part.Obeys (.innocent c)
  | [], _ => by simp [expandItems]
  | item :: items, h => by
    obtain ⟨first, rest⟩ := List.forall_mem_cons.1 h
    rw [expandItems]
    exact List.forall_mem_cons.2 ⟨innocent_expand hc first, innocent_expandItems hc rest⟩

end

mutual

theorem Value.plain_of_expand : ∀ {v : Value}, v.IsTameIn w → v.expand.Obeys (.innocent c) →
    v.IsSpelled atom (· ≠ .putKinshipTerm) w
  | .list (item :: items), tame, h => by
    obtain ⟨first, rest⟩ := List.forall_mem_cons.1 (Value.obeys_list.1 tame)
    rw [expand, Term.obeys_compound, List.forall_mem_cons, List.forall_mem_cons] at h
    exact Value.obeys_list.2
      (List.forall_mem_cons.2 ⟨plain_of_expand first h.2.1, plain_of_expandItems rest h.2.2⟩)
  | .function f, tame, h => by
    obtain ⟨p, rfl, -⟩ := isSpelled_function.1 tame
    rw [expand_of_isAtomic (v := .function (.primitive p)) trivial, key, spell, Term.obeys_atom] at h
    refine isSpelled_function.2 ⟨p, rfl, ?_⟩
    rintro rfl
    exact h.1 rfl
  | .list [], _, _ => isSpelled_vacant
  | .person _, tame, _ => isSpelled_person.2 (isSpelled_person.1 tame)
  | .string _, tame, _ => isSpelled_string.2 (isSpelled_string.1 tame)
  | .date _, tame, _ => isSpelled_date.2 (isSpelled_date.1 tame)
  | .boolean _, _, _ => isSpelled_boolean
  | .numeral _, _, _ => isSpelled_numeral
  | .void, _, _ => isSpelled_void

theorem Value.plain_of_expandItems : ∀ {items : List Value}, (∀ item ∈ items, item.IsTameIn w) →
    (∀ part ∈ expandItems items, part.Obeys (.innocent c)) →
      ∀ item ∈ items, item.IsSpelled atom (· ≠ .putKinshipTerm) w
  | [], _, _ => by simp
  | item :: items, tame, h => by
    obtain ⟨first, rest⟩ := List.forall_mem_cons.1 tame
    rw [expandItems, List.forall_mem_cons] at h
    exact List.forall_mem_cons.2 ⟨plain_of_expand first h.1, plain_of_expandItems rest h.2⟩

end

/-! ### Spelled terms -/

namespace Term

theorem innocent_expand (hc : c.IsSober) (plain : t.IsPlainFor c) : t.expand.Obeys (.innocent c) := by
  induction t using Term.induction with
  | atom text =>
    obtain ⟨atom, defined⟩ := Term.obeys_atom.1 plain
    rw [expand]
    exact Term.obeys_atom.2 ⟨atom.not_put, defined⟩
  | value v =>
    rw [expand]
    exact Value.innocent_expand hc (Term.obeys_value.1 plain.plainIn)
  | compound parts ih =>
    rw [expand_compound, Term.obeys_compound]
    intro expanded member
    obtain ⟨part, hpart, rfl⟩ := List.mem_map.1 member
    exact ih part hpart (Term.obeys_compound.1 plain part hpart)

theorem plainFor_of_innocent (tame : t.IsTameIn c.world) (h : t.expand.Obeys (.innocent c)) :
    t.IsPlainFor c := by
  induction t using Term.induction with
  | atom text =>
    have atom := Term.obeys_atom.1 tame
    rw [expand, Term.obeys_atom] at h
    have word : IsPlainWord text := ⟨atom.digits, atom.not_lambda, h.1, atom.not_mark⟩
    exact Term.obeys_atom.2 ⟨⟨word, atom.isAtomText⟩, h.2⟩
  | value v =>
    rw [expand] at h
    exact Term.obeys_value.2 (Value.plain_of_expand (Term.obeys_value.1 tame) h)
  | compound parts ih =>
    rw [expand_compound, Term.obeys_compound] at h
    refine Term.obeys_compound.2 fun part hpart => ?_
    exact ih part hpart (Term.obeys_compound.1 tame part hpart) (h _ (List.mem_map_of_mem hpart))

/-- A tame term that is the same as a plain one, once their values are written out, is plain. -/
theorem plainFor_of_expand_eq (hc : c.IsSober) (plain : t.IsPlainFor c) (tame : u.IsTameIn c.world)
    (same : t.expand = u.expand) : u.IsPlainFor c :=
  plainFor_of_innocent tame (same ▸ innocent_expand hc plain)

end Term
end KinQuery
