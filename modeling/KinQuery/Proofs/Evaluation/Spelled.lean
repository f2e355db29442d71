import KinQuery.Proofs.Evaluation.Meaning

/-! The meaning of spelled values.

A term that is a value once the values in it are written out means this value. With that,
terms that are the same once written out have the same value, if one of them has any. -/
namespace KinQuery

open List (Forall₂)

variable {c c' : Session} {applied : Function Value → List Value → Except Failure Value}
  {v : Value} {t u : Term Value}

/-! ### Heads and marks -/

theorem Term.meaning_of_expand_atom (plain : t.IsPlainIn c.world) {text : String}
    (h : t.expand = .atom text) : t.meaning c applied = atomAnswer c text := by
  cases t with
  | atom name =>
    rw [expand] at h
    cases h
    rw [meaning]
  | value v =>
    rw [expand] at h
    obtain ⟨atomic, rfl⟩ := Value.isAtomic_of_expand h
    rw [meaning, (Value.IsSpelled.isWord (Term.obeys_value.1 plain) atomic).atomAnswer_key]
  | compound parts =>
    rw [expand_compound] at h
    cases h

theorem Term.specialForm?_expand {parts : List (Term Value)}
    (plain : ∀ part ∈ parts, part.IsPlainIn c.world) :
    (compound (parts.map expand)).specialForm? = (compound parts).specialForm? := by
  cases parts with
  | nil => rfl
  | cons head rest =>
    have hplain := plain head List.mem_cons_self
    rw [List.map_cons, specialForm?, specialForm?, leader, leader]
    cases head with
    | atom name => rw [expand]
    | compound parts => rw [expand_compound]; rfl
    | value v =>
      rw [expand]
      cases hv : v.expand with
      | atom text =>
        obtain ⟨atomic, rfl⟩ := Value.isAtomic_of_expand hv
        exact (Value.IsSpelled.isWord (Term.obeys_value.1 hplain) atomic).ofWord?_key
      | compound parts => rfl
      | value u =>
        have bare := Value.IsSpelled.isBare_expand (Term.obeys_value.1 hplain)
        rw [hv] at bare
        cases bare

/-! ### Lists -/

theorem checkArity_list {count : Nat} (h : 1 ≤ count) :
    (Function.primitive .list : Function Value).checkArity count = .ok () := by
  simp [Function.checkArity, Function.arity, Primitive.arity, Arity.accepts, h]

theorem Applies.list (applies : Applies c.world applied) {items : List Value}
    (nonempty : items ≠ []) (plain : ∀ item ∈ items, item.IsPlainIn c.world) :
    applied (.primitive .list) items = .ok (.list items) := by
  have hf : Function.IsPlainIn c.world (.primitive .list) :=
    Value.isSpelled_function.2 ⟨.list, rfl, by decide⟩
  obtain ⟨s, -, run⟩ := applies.settles (.primitive .list) items hf plain 0 c rfl
  have direct : (apply 3 (.primitive .list) items).run c = (.ok (.list items), c) := by
    rw [apply_primitive, checkArity_list (List.length_pos_of_ne_nil nonempty)]
    rfl
  rw [direct] at run
  cases h : applied (.primitive .list) items with
  | ok v =>
    rw [h] at run
    cases run
    rfl
  | error failure =>
    rw [h] at run
    cases run

theorem mapM_ok (values : List Value) :
    (values.map Except.ok).mapM id = (.ok values : Except Failure (List Value)) := by
  induction values with
  | nil => rfl
  | cons v values ih =>
    rw [List.map_cons, List.mapM_cons, ih]
    rfl

theorem answerOf_list (applies : Applies c.world applied) {items : List Value}
    (nonempty : items ≠ []) (plain : ∀ item ∈ items, item.IsPlainIn c.world) :
    answerOf applied (.ok (.function (.primitive .list))) (items.map .ok) = .ok (.list items) := by
  have positive : 1 ≤ (items.map Except.ok : List (Except Failure Value)).length := by
    rw [List.length_map]
    exact List.length_pos_of_ne_nil nonempty
  change (do
    (Function.primitive .list : Function Value).checkArity (items.map Except.ok).length
    let values ← (items.map Except.ok).mapM id
    applied (.primitive .list) values) = _
  rw [checkArity_list positive, mapM_ok]
  exact applies.list nonempty plain

/-! ### Spelled values -/

theorem mark_injective {i j : PersonId} (h : "#" ++ toString i = "#" ++ toString j) : i = j := by
  have digits : Nat.toDigits 10 i = Nat.toDigits 10 j := by
    have same := congrArg String.toList h
    simpa [String.toList_append, Nat.toString_eq_repr] using same
  have read := Text.readNat?_toDigits i
  rw [digits, Text.readNat?_toDigits] at read
  exact (Option.some.inj read).symm

/-- Only a person has a mark. -/
theorem Term.expand_ne_mark {w : World} (plain : t.IsPlainIn w) (id : PersonId) :
    t.expand ≠ .atom ("#" ++ toString id) := by
  have mark : ("#" ++ toString id).toList.head? = some '#' := by simp [String.toList_append]
  intro h
  cases t with
  | atom text =>
    rw [expand] at h
    cases h
    exact (Term.obeys_atom.1 plain).not_mark mark
  | value v =>
    rw [expand] at h
    obtain ⟨atomic, key⟩ := Value.isAtomic_of_expand h
    rw [← key] at mark
    exact (Value.IsSpelled.isWord (Term.obeys_value.1 plain) atomic).not_mark mark
  | compound parts =>
    rw [expand_compound] at h
    cases h

theorem Value.meaning_of_expand_atomic (atomic : v.IsAtomic) (hv : v.IsPlainIn c.world)
    (ht : t.IsPlainIn c.world) (same : t.expand = v.expand) :
    t.meaning c applied = .ok v := by
  rw [expand_of_isAtomic atomic] at same
  rw [Term.meaning_of_expand_atom ht same, (Value.IsSpelled.isWord hv atomic).atomAnswer_key]

theorem Value.meaning_of_expand_person (hc : c.IsSober) {p : Profile} (hp : c.world.Holds p)
    (ht : t.IsPlainIn c.world) (same : t.expand = (Value.person p).expand) :
    t.meaning c applied = .ok (.person p) := by
  rw [expand] at same
  cases t with
  | atom text =>
    rw [Term.expand] at same
    cases same
  | value v =>
    rw [Term.expand] at same
    have plain := Term.obeys_value.1 ht
    rcases v.isAtomic_or with atomic | ⟨item, items, rfl⟩ | ⟨q, rfl⟩ | ⟨serial, names, body, rfl⟩
    · rw [expand_of_isAtomic atomic] at same
      cases same
    · rw [expand] at same
      simp at same
    · rw [expand] at same
      simp only [Term.compound.injEq, List.cons.injEq, Term.atom.injEq, and_true, true_and] at same
      have id := mark_injective same
      rw [Term.meaning, hc.world.unique q p (isSpelled_person.1 plain) hp id]
    · rw [expand] at same
      simp at same
  | compound parts =>
    rw [Term.expand_compound] at same
    rcases parts with _ | ⟨head, _ | ⟨mark, _ | _⟩⟩
    · simp at same
    · simp at same
    · have plain := Term.obeys_compound.1 ht mark (by simp)
      have marked : mark.expand = .atom ("#" ++ toString p.id) := by
        simp only [List.map_cons, List.map_nil, Term.compound.injEq, List.cons.injEq] at same
        exact same.2.1
      exact absurd marked (Term.expand_ne_mark plain p.id)
    · simp at same

theorem Value.meaning_of_expand_list (hc : c.IsSober) (applies : Applies c.world applied)
    {items : List Value} (plain : ∀ item ∈ items, item.IsPlainIn c.world)
    (each : ∀ ts : List (Term Value), (∀ t ∈ ts, t.IsPlainIn c.world) →
      ts.map Term.expand = items.map expand → ts.map (Term.meaning c applied) = items.map .ok)
    (ht : t.IsPlainIn c.world) (same : t.expand = (Value.list items).expand) :
    t.meaning c applied = .ok (.list items) := by
  cases items with
  | nil => exact meaning_of_expand_atomic (v := .list []) trivial (by simp) ht same
  | cons item items =>
    have spelled : (Value.list (item :: items)).expand =
        .compound (.atom "list" :: (item :: items).map expand) := by
      rw [expand, expandItems_eq_map, List.map_cons]
    rw [spelled] at same
    cases t with
    | atom text =>
      rw [Term.expand] at same
      cases same
    | value v =>
      rw [Term.expand] at same
      rcases v.isAtomic_or with atomic | ⟨other, others, rfl⟩ | ⟨p, rfl⟩ | ⟨serial, names, body, rfl⟩
      · rw [expand_of_isAtomic atomic] at same
        cases same
      · have plain' := Value.obeys_list.1 (Term.obeys_value.1 ht)
        rw [expand, expandItems_eq_map, Term.compound.injEq, List.cons.injEq] at same
        have expanded : ((other :: others).map Term.value).map Term.expand =
            (item :: items).map expand := by
          rw [← same.2, List.map_map]
          exact List.map_congr_left fun v _ => by rw [Function.comp_apply, Term.expand]
        have meant := each ((other :: others).map .value) (by simpa using plain') expanded
        have values : ((other :: others).map .ok : List (Except Failure Value)) =
            (item :: items).map .ok := by
          rw [← meant, List.map_map]
          exact List.map_congr_left fun v _ => by rw [Function.comp_apply, Term.meaning]
        rw [Term.meaning, List.map_injective_iff.2 (fun _ _ => Except.ok.inj) values]
      · rw [expand] at same
        simp at same
      · rw [expand] at same
        simp at same
    | compound parts =>
      rw [Term.expand_compound, Term.compound.injEq] at same
      cases parts with
      | nil => cases same
      | cons head rest =>
        have plain' := Term.obeys_compound.1 ht
        obtain ⟨hhead, hrest⟩ := List.forall_mem_cons.1 plain'
        have special := Term.specialForm?_expand plain'
        rw [same] at special
        rw [List.map_cons, List.cons.injEq] at same
        have first : head.meaning c applied = atomAnswer c "list" :=
          Term.meaning_of_expand_atom hhead same.1
        have others := each rest hrest same.2
        have none : (Term.compound (head :: rest)).specialForm? = none := special.symm.trans rfl
        rw [Term.meaning_compound, List.map_cons, combine_application none, first, others]
        have list : atomAnswer c "list" = .ok (.function (.primitive .list)) :=
          hc.atomAnswer_primitive .list
        rw [list]
        exact answerOf_list applies (List.cons_ne_nil item items) plain

mutual

/-- A term that is spelled as a value means this value. -/
theorem Value.meaning_of_expand (hc : c.IsSober) (applies : Applies c.world applied) :
    ∀ {v : Value}, v.IsPlainIn c.world → ∀ {t : Term Value}, t.IsPlainIn c.world →
      t.expand = v.expand → t.meaning c applied = .ok v
  | .list _, hv, _, ht, same =>
    have plain := Value.obeys_list.1 hv
    meaning_of_expand_list hc applies plain (meanings_of_expand hc applies plain) ht same
  | .person _, hv, _, ht, same => meaning_of_expand_person hc (isSpelled_person.1 hv) ht same
  | .boolean _, hv, _, ht, same | .numeral _, hv, _, ht, same | .string _, hv, _, ht, same
  | .date _, hv, _, ht, same | .function (.primitive _), hv, _, ht, same
  | .function (.host _), hv, _, ht, same | .void, hv, _, ht, same =>
    meaning_of_expand_atomic trivial hv ht same
  | .function (.lambda ..), hv, _, _, _ => by
    obtain ⟨p, hp, -⟩ := isSpelled_function.1 hv
    cases hp

theorem Value.meanings_of_expand (hc : c.IsSober) (applies : Applies c.world applied) :
    ∀ {items : List Value}, (∀ item ∈ items, item.IsPlainIn c.world) →
      ∀ ts : List (Term Value), (∀ t ∈ ts, t.IsPlainIn c.world) →
        ts.map Term.expand = items.map expand → ts.map (Term.meaning c applied) = items.map .ok
  | [], _, ts, _, same => by
    rw [List.map_nil, List.map_eq_nil_iff] at same
    rw [same]
    rfl
  | item :: items, h, ts, hts, same => by
    obtain ⟨hitem, hitems⟩ := List.forall_mem_cons.1 h
    cases ts with
    | nil => cases same
    | cons t ts =>
      obtain ⟨ht, hts⟩ := List.forall_mem_cons.1 hts
      rw [List.map_cons, List.map_cons, List.cons.injEq] at same
      rw [List.map_cons, List.map_cons, meaning_of_expand hc applies hitem ht same.1,
        meanings_of_expand hc applies hitems ts hts same.2]

end

/-! ### Terms spelled alike -/

/-- The second result is the first one, if that is a value. -/
def Within {α : Type} (r q : Except Failure α) : Prop :=
  ∀ a, r = .ok a → q = .ok a

namespace Within
variable {α β : Type} {r q : Except Failure α}

theorem refl (r : Except Failure α) : Within r r :=
  fun _ h => h

theorem bind {f g : α → Except Failure β} (first : Within r q)
    (next : ∀ a, r = .ok a → Within (f a) (g a)) : Within (r >>= f) (q >>= g) := by
  cases r with
  | error failure =>
    intro b h
    cases h
  | ok a =>
    rw [first a rfl]
    exact next a rfl

theorem mapM {rs qs : List (Except Failure α)} (h : Forall₂ Within rs qs) :
    Within (rs.mapM id) (qs.mapM id) := by
  induction h with
  | nil => exact refl _
  | cons first _ ih =>
    rw [List.mapM_cons, List.mapM_cons]
    exact first.bind fun a _ => ih.bind fun as _ => refl _

end Within

theorem branchOf_within {rs qs : List (Except Failure Value)} (h : Forall₂ Within rs qs) :
    Within (branchOf rs) (branchOf qs) := by
  unfold branchOf
  split
  · obtain _ | ⟨_, _ | ⟨condition, _ | ⟨yes, _ | ⟨no, _ | _⟩⟩⟩⟩ := h
    refine condition.bind fun v _ => (Within.refl _).bind fun b _ => ?_
    cases b with
    | true => exact yes
    | false => exact no
  · intro v h
    cases h

theorem answerOf_within {head head' : Except Failure Value} {rs qs : List (Except Failure Value)}
    (first : Within head head') (rest : Forall₂ Within rs qs) :
    Within (answerOf applied head rs) (answerOf applied head' qs) := by
  unfold answerOf
  rw [rest.length_eq]
  have function : Within (headFunction head) (headFunction head') :=
    first.bind fun _ _ => .refl _
  refine function.bind fun f _ => (Within.refl _).bind fun _ _ => ?_
  exact (Within.mapM rest).bind fun _ _ => .refl _

theorem combine_within {parts others : List (Term Value)} {rs qs : List (Except Failure Value)}
    (special : (Term.compound parts).specialForm? = (Term.compound others).specialForm?)
    (each : Forall₂ Within rs qs) :
    Within (combine applied parts rs) (combine applied others qs) := by
  unfold combine
  rw [← special]
  split
  · intro v h
    cases h
  · exact branchOf_within each
  · intro v h
    cases h
  · cases each with
    | nil => exact .refl _
    | cons first rest => exact answerOf_within first rest

/-- The second session has the definitions of the first, and perhaps more. -/
structure Session.Extends (c c' : Session) : Prop where
  world : c'.world = c.world
  definitions : ∀ name v, c.definition? name = some v → c'.definition? name = some v

theorem Session.Extends.refl (c : Session) : c.Extends c :=
  ⟨rfl, fun _ _ h => h⟩

theorem Session.Extends.atomAnswer (more : c.Extends c') (hc : c.IsSober) (hc' : c'.IsSober)
    (name : String) : Within (atomAnswer c name) (atomAnswer c' name) := by
  have tree : c'.world.tree = c.world.tree := by rw [more.world]
  have today : c'.today = c.today := congrArg World.today more.world
  rw [hc.atomAnswer_eq, hc'.atomAnswer_eq, tree, today]
  split
  · exact .refl _
  · split
    · exact .refl _
    · intro v h
      cases hv : c.definition? name with
      | none =>
        rw [hv] at h
        cases h
      | some u =>
        rw [hv] at h
        rw [more.definitions name u hv]
        exact h

/-- Of two terms that are spelled alike, the second has the value of the first, and keeps it
when there are more definitions. -/
theorem Term.meaning_within (hc : c.IsSober) (hc' : c'.IsSober) (more : c.Extends c')
    (applies : Applies c.world applied) (ht : t.IsPlainIn c.world) (hu : u.IsPlainIn c.world)
    (same : t.expand = u.expand) : Within (t.meaning c applied) (u.meaning c' applied) := by
  induction t using Term.induction generalizing u with
  | value v =>
    rw [meaning]
    rintro _ ⟨⟩
    rw [expand] at same
    have applies' : Applies c'.world applied := more.world ▸ applies
    have hv : v.IsPlainIn c'.world := more.world ▸ Term.obeys_value.1 ht
    exact Value.meaning_of_expand hc' applies' hv (more.world ▸ hu) same.symm
  | atom name =>
    cases u with
    | atom name' =>
      rw [expand, expand] at same
      cases same
      rw [meaning, meaning]
      exact more.atomAnswer hc hc' name
    | value v =>
      rw [Value.meaning_of_expand hc applies (Term.obeys_value.1 hu) ht (same.trans (by rw [expand]))]
      rw [meaning]
      exact .refl _
    | compound parts =>
      rw [expand, expand_compound] at same
      cases same
  | compound parts ih =>
    cases u with
    | atom name =>
      rw [expand, expand_compound] at same
      cases same
    | value v =>
      rw [Value.meaning_of_expand hc applies (Term.obeys_value.1 hu) ht (same.trans (by rw [expand]))]
      rw [meaning]
      exact .refl _
    | compound others =>
      have hparts := Term.obeys_compound.1 ht
      have hothers := Term.obeys_compound.1 hu
      rw [expand_compound, expand_compound, compound.injEq] at same
      rw [meaning_compound, meaning_compound]
      refine combine_within ?_ ?_
      · rw [← specialForm?_expand hparts, ← specialForm?_expand hothers, same]
      · have pairs : Forall₂ (fun t u : Term Value => t.expand = u.expand) parts others := by
          rw [← List.forall₂_map_right_iff, ← List.forall₂_map_left_iff, List.forall₂_eq_eq_eq]
          exact same
        obtain ⟨length, alike⟩ := List.forall₂_iff_zip.1 pairs
        rw [List.forall₂_map_left_iff, List.forall₂_map_right_iff]
        refine List.forall₂_iff_zip.2 ⟨length, fun {part other} hpair => ?_⟩
        obtain ⟨hpart, hother⟩ := List.of_mem_zip hpair
        exact ih part hpart (hparts part hpart) (hothers other hother) (alike hpair)

end KinQuery
