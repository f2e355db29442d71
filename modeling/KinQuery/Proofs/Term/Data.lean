import KinQuery.Proofs.Term.Expansion

/-! Keys tell values apart.

A key is read back as the term that it spells, whatever the strings in it look like, as long as
they hold no quote. What one term spells is one value, except that a person is known by its mark
alone. So two values have the same key just when they are the same. -/
namespace KinQuery

open List (Forall₂)

variable {v w : Value}

/-! ### Sameness -/

namespace Value

theorem sameItems_iff {items others : List Value} :
    sameItems items others = true ↔ Forall₂ (fun a b => a.same b = true) items others := by
  induction items generalizing others with
  | nil => cases others <;> simp [sameItems]
  | cons item items ih => cases others <;> simp [sameItems, ih]

theorem map_eq_iff_forall₂ {α : Type} {f : Value → α} {items others : List Value} :
    items.map f = others.map f ↔ Forall₂ (fun a b => f a = f b) items others := by
  rw [← List.forall₂_eq_eq_eq, List.forall₂_map_left_iff, List.forall₂_map_right_iff]

mutual

theorem same_self : ∀ v : Value, v.same v = true
  | .list items => by rw [same, sameItems_self items]
  | .boolean _ | .numeral _ | .string _ | .date _ | .person _ | .function _ | .void => by
    simp [same]

theorem sameItems_self : ∀ items : List Value, sameItems items items = true
  | [] => rfl
  | item :: items => by rw [sameItems, same_self item, sameItems_self items, Bool.and_self]

end

/-! ### Data -/

/-- Values without functions, whose strings hold no quotes. -/
inductive IsData : Value → Prop
  | boolean (b : Bool) : IsData (.boolean b)
  | numeral (n : Numeral) : IsData (.numeral n)
  | string {s : String} : Text.quote ∉ s.toList → IsData (.string s)
  | date (d : Date) : IsData (.date d)
  | person (p : Profile) : IsData (.person p)
  | void : IsData .void
  | list {items : List Value} : (∀ item ∈ items, IsData item) → IsData (.list items)

/-- The key of a list is put together from the keys of its items. -/
theorem key_list_congr {items others : List Value} (h : items.map key = others.map key) :
    (list items).key = (list others).key := by
  cases items with
  | nil =>
    cases others with
    | nil => rfl
    | cons => cases h
  | cons item items =>
    cases others with
    | nil => cases h
    | cons other others =>
      obtain ⟨first, rest⟩ := List.cons.inj h
      have rest : items.map (spell personKey) = others.map (spell personKey) := rest
      rw [key, key] at first ⊢
      rw [spell, spell, spellItems_eq_map, spellItems_eq_map, first, rest]

namespace IsData

/-! ### Values spelled by one word -/

/-- All but dates are read back from their words; dates may lie in years that terms cannot
spell. -/
theorem isWord_or_date (data : v.IsData) (atomic : v.IsAtomic) :
    v.IsWord ∨ ∃ d, v = .date d := by
  cases data with
  | boolean | numeral | void => exact .inl trivial
  | string free => exact .inl free
  | date d => exact .inr ⟨d, rfl⟩
  | person p => exact atomic.elim
  | @list items each =>
    cases items with
    | nil => exact .inl rfl
    | cons item items => exact atomic.elim

/-- A word for a date begins with a digit, as no word for a boolean, a string or the empty list
does, and has dots, as no word for a numeral does. -/
theorem key_ne_date (data : v.IsData) (atomic : v.IsAtomic) (other : ∀ d, v ≠ .date d)
    (d : Date) : v.key ≠ d.text := by
  intro same
  obtain ⟨c, cs, digits, digit, -⟩ := Numeral.toDigits_eq_cons d.day
  have dated : v.key.toList =
      c :: (cs ++ '.' :: (Nat.toDigits 10 d.month ++ '.' :: (toString d.year).toList)) := by
    rw [same, d.toList_text_eq, digits]
    rfl
  have begins {first : Char} {rest : List Char} (spelled : v.key.toList = first :: rest)
      (letter : first.isDigit = false) : False := by
    rw [spelled] at dated
    rw [(List.cons.inj dated).1, digit] at letter
    cases letter
  cases data with
  | boolean b => cases b <;> exact begins rfl (by decide)
  | numeral n =>
    have dot : '.' ∈ (key (.numeral n)).toList := by simp [dated]
    rw [key, spell, n.toList_text, List.mem_append] at dot
    rcases dot with sign | digits
    · split at sign <;> simp at sign
    · exact Date.notMem_toDigits (by decide) digits
  | string free => exact begins (Kind.toList_stringLiteral _) (by decide)
  | date e => exact other e rfl
  | person p => exact atomic
  | void => exact begins rfl (by decide)
  | @list items each =>
    cases items with
    | nil => exact begins rfl (by decide)
    | cons item items => exact atomic

theorem eq_of_key (data : v.IsData) (data' : w.IsData) (atomic : v.IsAtomic)
    (atomic' : w.IsAtomic) (same : v.key = w.key) : v = w := by
  by_cases dated : ∃ d, v = .date d
  · obtain ⟨d, rfl⟩ := dated
    rw [key, spell] at same
    by_cases dated' : ∃ e, w = .date e
    · obtain ⟨e, rfl⟩ := dated'
      rw [key, spell] at same
      rw [Date.text_injective same]
    · exact absurd same.symm (data'.key_ne_date atomic' (not_exists.1 dated') d)
  · by_cases dated' : ∃ e, w = .date e
    · obtain ⟨e, rfl⟩ := dated'
      rw [key, key, spell] at same
      exact absurd same (data.key_ne_date atomic (not_exists.1 dated) e)
    · exact ((data.isWord_or_date atomic).resolve_right dated).eq_of_key
        ((data'.isWord_or_date atomic').resolve_right dated') same

/-! ### Values of every form -/

theorem isBare_of_isAtomic (data : v.IsData) (atomic : v.IsAtomic) : v.expand.IsBare := by
  rw [expand_of_isAtomic atomic]
  rcases data.isWord_or_date atomic with word | ⟨d, rfl⟩
  · exact .atom word.isAtomText
  · exact .atom d.isAtomText_text

theorem isBare_expand (data : v.IsData) : v.expand.IsBare := by
  induction data with
  | boolean b => exact isBare_of_isAtomic (.boolean b) trivial
  | numeral n => exact isBare_of_isAtomic (.numeral n) trivial
  | string free => exact isBare_of_isAtomic (.string free) trivial
  | date d => exact isBare_of_isAtomic (.date d) trivial
  | void => exact isBare_of_isAtomic .void trivial
  | person p =>
    rw [expand]
    refine .compound (List.forall_mem_cons.2 ⟨.atom Primitive.person.isAtomText_name, ?_⟩)
    exact List.forall_mem_singleton.2 (.atom (isAtomText_mark p.id))
  | @list items each ih =>
    cases items with
    | nil => exact isBare_of_isAtomic (.list each) trivial
    | cons item items =>
      rw [expand, expandItems_eq_map, ← List.map_cons]
      exact Term.isBare_list (List.forall_mem_map.2 ih)

/-- A value that is spelled by one word is spelled like no other. -/
theorem same_of_isAtomic (data : v.IsData) (data' : w.IsData) (atomic : v.IsAtomic)
    (written : v.expand = w.expand) : v.same w = true := by
  rw [expand_of_isAtomic atomic] at written
  obtain ⟨atomic', key⟩ := isAtomic_of_expand written.symm
  rw [data.eq_of_key data' atomic atomic' key.symm]
  exact same_self w

theorem same_of_expand (data : v.IsData) :
    ∀ w : Value, w.IsData → v.expand = w.expand → v.same w = true := by
  induction data with
  | boolean b => exact fun w data' => same_of_isAtomic (.boolean b) data' trivial
  | numeral n => exact fun w data' => same_of_isAtomic (.numeral n) data' trivial
  | string free => exact fun w data' => same_of_isAtomic (.string free) data' trivial
  | date d => exact fun w data' => same_of_isAtomic (.date d) data' trivial
  | void => exact fun w data' => same_of_isAtomic .void data' trivial
  | person p =>
    intro w data' written
    rcases w.isAtomic_or with atomic | ⟨item, items, rfl⟩ | ⟨q, rfl⟩ | ⟨serial, names, body, rfl⟩
    · rw [expand, expand_of_isAtomic atomic] at written
      cases written
    · simp [expand] at written
    · simp only [expand, Term.compound.injEq, List.cons.injEq, Term.atom.injEq, and_true,
        true_and] at written
      have digits : Nat.toDigits 10 p.id = Nat.toDigits 10 q.id := by
        simpa [Nat.toString_eq_repr] using congrArg String.toList written
      simpa [same] using Date.toDigits_injective digits
    · cases data'
  | @list items each ih =>
    intro w data' written
    cases items with
    | nil => exact same_of_isAtomic (.list each) data' trivial written
    | cons item items =>
      rcases w.isAtomic_or with
        atomic | ⟨item', items', rfl⟩ | ⟨q, rfl⟩ | ⟨serial, names, body, rfl⟩
      · rw [expand, expand_of_isAtomic atomic] at written
        cases written
      · cases data' with
        | list each' =>
          simp only [expand, expandItems_eq_map, Term.compound.injEq, ← List.map_cons] at written
          obtain ⟨length, spelled⟩ := List.forall₂_iff_zip.1
            (map_eq_iff_forall₂.1 (List.cons.inj written).2)
          rw [same, sameItems_iff, List.forall₂_iff_zip]
          refine ⟨length, fun {a b} inside => ?_⟩
          obtain ⟨left, right⟩ := List.of_mem_zip inside
          exact ih a left b (each' b right) (spelled inside)
      · simp [expand] at written
      · cases data'

/-- What one key spells is the same. -/
theorem same_of_key (data : v.IsData) (data' : w.IsData) (same : v.key = w.key) :
    v.same w = true :=
  data.same_of_expand w data' (Term.expand_eq_of_key_eq (t := .value v) (u := .value w)
    data.isBare_expand data'.isBare_expand same)

theorem key_eq_of_same (data : v.IsData) : ∀ w : Value, v.same w = true → v.key = w.key := by
  induction data with
  | @list items each ih =>
    intro w same
    cases w with
    | list others =>
      rw [Value.same, sameItems_iff, List.forall₂_iff_zip] at same
      refine key_list_congr (map_eq_iff_forall₂.2 (List.forall₂_iff_zip.2 ⟨same.1, ?_⟩))
      exact fun {a b} inside => ih a (List.of_mem_zip inside).1 b (same.2 inside)
    | _ => simp [Value.same] at same
  | _ =>
    intro w same
    cases w <;> simp_all [Value.same, key, spell, personKey]

end IsData

/-- Two values have one key just when they are the same. -/
theorem key_eq_iff_same (data : v.IsData) (data' : w.IsData) :
    v.key = w.key ↔ v.same w = true :=
  ⟨data.same_of_key data', data.key_eq_of_same w⟩

/-- A person under another name, and a namesake; the string looks like the parts of a key, and
the date lies in a year that no term spells. -/
theorem key_eq_iff_same_namesake :
    let born : Date := ⟨1970, 1, 31, by decide, by decide, by decide, by decide⟩
    let ides : Date := ⟨-43, 3, 15, by decide, by decide, by decide, by decide⟩
    let ann : Profile := ⟨1, "Ann", "Lee", .female, born, "", "", ""⟩
    let renamed : Profile := { ann with lastName := "Poe" }
    let namesake : Profile := { ann with id := 2 }
    let row (p : Profile) : Value :=
      .list [.person p, .string "void) (list 1", .date ides, .list [.void, .list []]]
    (∀ p, (row p).IsData) ∧
      (row ann).same (row renamed) = true ∧ (row ann).key = (row renamed).key ∧
      (row ann).same (row namesake) = false ∧ (row ann).key ≠ (row namesake).key := by
  intro born ides ann renamed namesake row
  have data (p : Profile) : (row p).IsData := by
    have free : Text.quote ∉ "void) (list 1".toList := by decide
    have vacant : (list []).IsData := .list (by simp)
    refine .list (List.forall_mem_cons.2 ⟨.person p, List.forall_mem_cons.2 ⟨.string free, ?_⟩⟩)
    refine List.forall_mem_cons.2 ⟨.date ides, List.forall_mem_singleton.2 (.list ?_)⟩
    exact List.forall_mem_cons.2 ⟨.void, List.forall_mem_singleton.2 vacant⟩
  have apart : ¬(row ann).same (row namesake) = true := by decide
  exact ⟨data, by decide, (key_eq_iff_same (data ann) (data renamed)).2 (by decide), by decide,
    mt (key_eq_iff_same (data ann) (data namesake)).1 apart⟩

end Value
end KinQuery
