import KinQuery.Proofs.Evaluation.Word
import KinQuery.Proofs.Function.Plain
import KinQuery.Proofs.Term.Formed

/-! Terms in which values are written out.

A key of the cache spells the values of a term as terms. Written out in the same way, a term
keeps its key and holds no values. So if two terms have the same key, they are the same once
their values are written out. -/
namespace KinQuery

mutual

def Value.expand : Value → Term Value
  | .list (item :: items) => .compound (.atom "list" :: item.expand :: Value.expandItems items)
  | .person p => .compound [.atom "person", .atom ("#" ++ toString p.id)]
  | .function (.lambda _ parameters body) =>
    .compound [.atom "lambda", .compound (parameters.map .atom), Term.expand body]
  | v => .atom v.key

def Value.expandItems : List Value → List (Term Value)
  | [] => []
  | item :: items => item.expand :: Value.expandItems items

def Term.expand : Term Value → Term Value
  | .atom text => .atom text
  | .value v => v.expand
  | .compound parts => .compound (Term.expandParts parts)

def Term.expandParts : List (Term Value) → List (Term Value)
  | [] => []
  | part :: parts => Term.expand part :: Term.expandParts parts

end

namespace Term

theorem expandParts_eq_map (parts : List (Term Value)) :
    expandParts parts = parts.map expand := by
  induction parts with
  | nil => simp [expandParts]
  | cons part parts ih => simp [expandParts, ih]

theorem expand_compound (parts : List (Term Value)) :
    expand (.compound parts) = .compound (parts.map expand) := by
  rw [expand, expandParts_eq_map]

end Term

namespace Value

theorem spellItems_eq_map (person : Profile → String) (items : List Value) :
    spellItems person items = items.map (spell person) := by
  induction items with
  | nil => simp [spellItems]
  | cons item items ih => simp [spellItems, ih]

theorem expandItems_eq_map (items : List Value) : expandItems items = items.map expand := by
  induction items with
  | nil => simp [expandItems]
  | cons item items ih => simp [expandItems, ih]

end Value

/-! ### Keys -/

theorem Value.spellParts_atoms (names : List String) :
    spellParts personKey (names.map Term.atom) = names := by
  induction names with
  | nil => simp [spellParts]
  | cons name names ih => simp [spellParts, spellTerm, ih]

open Value in
mutual

theorem Value.key_expand : ∀ v : Value, v.expand.key = v.key
  | .list (item :: items) => by
    have first := item.key_expand
    have rest := Value.keys_expandItems items
    rw [Term.key, key] at first
    rw [expand, Term.key, key, spellTerm, spellParts, spellParts, spellTerm, first, rest, spell]
  | .person p => by
    rw [expand, Term.key, key, spellTerm, spellParts, spellParts, spellParts, spellTerm, spellTerm,
      spell, personKey]
  | .function (.lambda _ parameters body) => by
    have inside := body.key_expand
    rw [Term.key, Term.key] at inside
    rw [expand, Term.key, key, spellTerm, spellParts, spellParts, spellParts, spellParts, spellTerm,
      spellTerm, spellParts_atoms, inside, spell]
  | .list [] | .boolean _ | .numeral _ | .string _ | .date _ | .function (.primitive _)
  | .function (.host _) | .void => by
    rw [expand, Term.key, spellTerm] <;> simp

theorem Value.keys_expandItems :
    ∀ items : List Value, spellParts personKey (expandItems items) = spellItems personKey items
  | [] => by rw [expandItems, spellParts, spellItems]
  | item :: items => by
    have first := item.key_expand
    rw [Term.key, key] at first
    rw [expandItems, spellParts, spellItems, first, Value.keys_expandItems items]

theorem Term.key_expand : ∀ t : Term Value, t.expand.key = t.key
  | .atom text => by rw [Term.expand]
  | .value v => by rw [Term.expand, v.key_expand, Term.key, spellTerm, key]
  | .compound parts => by
    rw [Term.expand, Term.key, Term.key, spellTerm, spellTerm, Term.keys_expandParts parts]

theorem Term.keys_expandParts : ∀ parts : List (Term Value),
    spellParts personKey (Term.expandParts parts) = spellParts personKey parts
  | [] => by rw [Term.expandParts]
  | part :: parts => by
    have first := part.key_expand
    rw [Term.key, Term.key] at first
    rw [Term.expandParts, spellParts, spellParts, first, Term.keys_expandParts parts]

end

/-! ### Atomic values -/

variable {atom : String → Prop} {allowed : Primitive → Prop} {w : World}

/-- The values that are spelled as one word or literal. -/
def Value.IsAtomic : Value → Prop
  | .list (_ :: _) => False
  | .person _ => False
  | .function (.lambda ..) => False
  | _ => True

theorem Value.expand_of_isAtomic {v : Value} (h : v.IsAtomic) : v.expand = .atom v.key := by
  match v, h with
  | .list [], _ | .boolean _, _ | .numeral _, _ | .string _, _ | .date _, _
  | .function (.primitive _), _ | .function (.host _), _ | .void, _ => rw [expand] <;> simp

theorem Value.isAtomic_or (v : Value) :
    v.IsAtomic ∨ (∃ item items, v = .list (item :: items)) ∨ (∃ p, v = .person p) ∨
      ∃ serial parameters body, v = .function (.lambda serial parameters body) := by
  cases v with
  | list items =>
    cases items with
    | nil => exact .inl trivial
    | cons item items => exact .inr (.inl ⟨item, items, rfl⟩)
  | person p => exact .inr (.inr (.inl ⟨p, rfl⟩))
  | function f =>
    cases f with
    | lambda serial parameters body => exact .inr (.inr (.inr ⟨serial, parameters, body, rfl⟩))
    | _ => exact .inl trivial
  | _ => exact .inl trivial

theorem Value.isAtomic_of_expand {v : Value} {text : String} (h : v.expand = .atom text) :
    v.IsAtomic ∧ v.key = text := by
  rcases v.isAtomic_or with atomic | ⟨item, items, rfl⟩ | ⟨p, rfl⟩ | ⟨serial, names, body, rfl⟩
  · rw [expand_of_isAtomic atomic] at h
    exact ⟨atomic, Term.atom.inj h⟩
  · rw [expand] at h
    cases h
  · rw [expand] at h
    cases h
  · rw [expand] at h
    cases h

/-! ### Legible values -/

/-- Strings without quotes, and dates in the years that terms can spell. -/
def Vocabulary.legible : Vocabulary where
  atom _ := True
  leaf
    | .string s => Text.quote ∉ s.toList
    | .date d => d.IsSpellable
    | _ => True
  lambda := True

/-- Of atomic values, only registered functions are not spelled by words for values. -/
theorem Value.isWord_or_host {v : Value} (legible : v.Obeys .legible) (h : v.IsAtomic) :
    v.IsWord ∨ ∃ f, v = .function (.host f) := by
  match v, h with
  | .string _, _ | .date _, _ => exact .inl legible
  | .function (.host f), _ => exact .inr ⟨f, rfl⟩
  | .list [], _ => exact .inl rfl
  | .boolean _, _ | .numeral _, _ | .function (.primitive _), _ | .void, _ => exact .inl trivial

theorem Value.isBare_of_isAtomic {v : Value} (formed : v.IsFormed) (legible : v.Obeys .legible)
    (h : v.IsAtomic) : v.expand.IsBare := by
  rw [expand_of_isAtomic h]
  refine .atom ?_
  rcases isWord_or_host legible h with word | ⟨f, rfl⟩
  · exact word.isAtomText
  · rw [key, spell]
    exact isAtomText_of_isReference (Value.isFormed_host.1 formed).1.1

theorem Term.isBare_list {items : List (Term Value)} (each : ∀ item ∈ items, item.IsBare) :
    IsBare (.compound (.atom "list" :: items)) :=
  .compound (List.forall_mem_cons.2 ⟨.atom Primitive.list.isAtomText_name, each⟩)

theorem Term.isBare_lambda {parameters : List String} {body : Term Value}
    (proper : ∀ name ∈ parameters, IsProper name) (bare : body.IsBare) :
    IsBare (.compound [.atom "lambda", .compound (parameters.map .atom), body]) := by
  have word : IsBare (.atom "lambda") := .atom (.of_all (by decide) (by decide))
  have declared : IsBare (.compound (parameters.map .atom)) := by
    refine .compound fun part hpart => ?_
    obtain ⟨name, member, rfl⟩ := List.mem_map.1 hpart
    exact .atom (isAtomText_of_isReference (proper name member).1)
  refine .compound fun part hpart => ?_
  simp only [List.mem_cons, List.not_mem_nil, or_false] at hpart
  rcases hpart with rfl | rfl | rfl
  · exact word
  · exact declared
  · exact bare

mutual

theorem Value.isBare_expand : ∀ {v : Value}, v.IsFormed → v.Obeys .legible → v.expand.IsBare
  | .list (item :: items), formed, legible => by
    rw [Value.IsFormed] at formed
    rw [Value.Obeys] at legible
    rw [Value.expand]
    exact Term.isBare_list (List.forall_mem_cons.2
      ⟨Value.isBare_expand formed.1 legible.1, Value.areBare_expandItems formed.2 legible.2⟩)
  | .person p, _, _ => by
    rw [Value.expand]
    refine .compound (List.forall_mem_cons.2 ⟨.atom Primitive.person.isAtomText_name, ?_⟩)
    exact List.forall_mem_cons.2 ⟨.atom (isAtomText_mark p.id), by simp⟩
  | .function (.lambda _ parameters body), formed, legible => by
    obtain ⟨proper, body⟩ := Value.isFormed_lambda.1 formed
    rw [Value.expand]
    exact Term.isBare_lambda proper (Term.isBare_expand body (Value.obeys_lambda.1 legible).2)
  | .list [], formed, legible | .boolean _, formed, legible | .numeral _, formed, legible
  | .string _, formed, legible | .date _, formed, legible | .function (.primitive _), formed, legible
  | .function (.host _), formed, legible | .void, formed, legible =>
    Value.isBare_of_isAtomic formed legible trivial

theorem Value.areBare_expandItems : ∀ {items : List Value}, Value.AreFormed items →
    Value.AllObey .legible items → ∀ part ∈ Value.expandItems items, part.IsBare
  | [], _, _ => by simp [Value.expandItems]
  | item :: items, formed, legible => by
    rw [Value.expandItems]
    exact List.forall_mem_cons.2
      ⟨Value.isBare_expand formed.1 legible.1, Value.areBare_expandItems formed.2 legible.2⟩

theorem Term.isBare_expand : ∀ {t : Term Value}, t.IsFormed → t.Obeys .legible → t.expand.IsBare
  | .atom text, formed, _ => by
    rw [Term.expand]
    exact .atom formed
  | .value v, formed, legible => by
    rw [Term.expand]
    exact Value.isBare_expand (Term.isFormed_value.1 formed) (Term.obeys_value.1 legible)
  | .compound parts, formed, legible => by
    rw [Term.IsFormed] at formed
    rw [Term.Obeys] at legible
    rw [Term.expand]
    exact .compound (Term.areBare_expandParts formed legible)

theorem Term.areBare_expandParts : ∀ {parts : List (Term Value)}, Term.AreFormed parts →
    Term.AllObey .legible parts → ∀ part ∈ Term.expandParts parts, part.IsBare
  | [], _, _ => by simp [Term.expandParts]
  | part :: parts, formed, legible => by
    rw [Term.expandParts]
    exact List.forall_mem_cons.2
      ⟨Term.isBare_expand formed.1 legible.1, Term.areBare_expandParts formed.2 legible.2⟩

end

/-- Terms with the same key are the same once their values are written out. -/
theorem Term.expand_eq_of_key_eq {t u : Term Value} (bare : t.expand.IsBare)
    (bare' : u.expand.IsBare) (h : t.key = u.key) : t.expand = u.expand := by
  rw [← key_expand t, ← key_expand u] at h
  exact bare.eq_of_key bare' h

/-! ### Plain values -/

mutual

theorem Value.isFormed_of_isSpelled : ∀ {v : Value}, v.IsSpelled atom allowed w → v.IsFormed
  | .list _, h => by
    rw [Value.IsFormed]
    exact Value.areFormed_of_areSpelled (Value.obeys_list.1 h)
  | .function _, h => by
    obtain ⟨p, rfl, -⟩ := Value.isSpelled_function.1 h
    exact Value.isFormed_primitive p
  | .boolean _, _ | .numeral _, _ | .string _, _ | .date _, _ | .person _, _ | .void, _ => by
    simp [Value.IsFormed]

theorem Value.areFormed_of_areSpelled : ∀ {items : List Value},
    (∀ item ∈ items, item.IsSpelled atom allowed w) → Value.AreFormed items
  | [], _ => trivial
  | _ :: _, h => by
    obtain ⟨first, rest⟩ := List.forall_mem_cons.1 h
    exact ⟨Value.isFormed_of_isSpelled first, Value.areFormed_of_areSpelled rest⟩

end

theorem Vocabulary.spelled_within_legible :
    (Vocabulary.spelled atom allowed w).Within .legible where
  atom _ _ := trivial
  leaf v h := by
    cases v with
    | string s => exact h.1
    | date d => exact h
    | _ => trivial
  lambda := False.elim

namespace Value.IsSpelled
variable {v : Value}

theorem legible (h : v.IsSpelled atom allowed w) : v.Obeys .legible :=
  Value.Obeys.mono Vocabulary.spelled_within_legible h

theorem isWord (h : v.IsSpelled atom allowed w) (atomic : v.IsAtomic) : v.IsWord := by
  rcases Value.isWord_or_host (legible h) atomic with word | ⟨f, rfl⟩
  · exact word
  · obtain ⟨p, hp, -⟩ := isSpelled_function.1 h
    cases hp

theorem isBare_expand (h : v.IsSpelled atom allowed w) : v.expand.IsBare :=
  Value.isBare_expand (isFormed_of_isSpelled h) (legible h)

end Value.IsSpelled

/-- The words and values of the term are plain. -/
abbrev Term.IsPlainIn (w : World) (t : Term Value) : Prop :=
  t.Obeys (.plain w)

/-- The term is plain, but for `put-kinship-term`. -/
abbrev Term.IsTameIn (w : World) (t : Term Value) : Prop :=
  t.Obeys (.tame w)

theorem Vocabulary.plain_within_tame : (Vocabulary.plain w).Within (.tame w) where
  atom _ h := h.tame
  leaf v h := by
    cases v with
    | function f =>
      cases f with
      | primitive p => trivial
      | _ => exact h
    | _ => exact h
  lambda := id

theorem Value.Obeys.tame {v : Value} (plain : v.IsPlainIn w) : v.IsTameIn w :=
  plain.mono Vocabulary.plain_within_tame

theorem Term.Obeys.tame {t : Term Value} (plain : t.IsPlainIn w) : t.IsTameIn w :=
  plain.mono Vocabulary.plain_within_tame

theorem Term.isFormed_of_isTameIn {t : Term Value} (tame : t.IsTameIn w) : t.IsFormed := by
  induction t using Term.induction with
  | atom text => exact (Term.obeys_atom.1 tame).isAtomText
  | value v => exact Term.isFormed_value.2 (Value.isFormed_of_isSpelled (Term.obeys_value.1 tame))
  | compound parts ih =>
    have each := Term.obeys_compound.1 tame
    exact Term.isFormed_compound.2 fun part hpart => ih part hpart (each part hpart)

theorem Term.isBare_of_isTameIn {t : Term Value} (tame : t.IsTameIn w) : t.expand.IsBare :=
  isBare_expand (isFormed_of_isTameIn tame) (tame.mono Vocabulary.spelled_within_legible)

/-- Tame compounds with the same key are the same once their values are written out. -/
theorem Term.expand_eq_of_tame {parts others : List (Term Value)}
    (tame : (compound parts).IsTameIn w) (tame' : (compound others).IsTameIn w)
    (h : (compound parts).key = (compound others).key) :
    (compound parts).expand = (compound others).expand :=
  expand_eq_of_key_eq (isBare_of_isTameIn tame) (isBare_of_isTameIn tame') h

end KinQuery
