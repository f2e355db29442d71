import KinQuery.Proofs.Dictionary.Origin
import KinQuery.Proofs.Session.Innocent
import KinQuery.Proofs.Session.Sound

/-! Evaluation that may change the dictionary on the way.

An addition to the dictionary forgets all results, those of the running query too, so that
what is kept then is right for whatever the dictionary has become. Only the applications that
were running when the addition was made still keep their results, and the keys of these hold
the word `put-kinship-term`: of terms without it every result that is kept is the meaning. -/
namespace KinQuery

variable {atom : String → Prop} {allowed : Primitive → Prop} {w w' : World} {c s t : Session}
  {v : Value}

/-! ### The dictionary -/

/-- Nothing hinders the dictionary from being saved. -/
def Dictionary.IsWritable (d : Dictionary) : Prop :=
  ∀ file, d.file = some file → file.obstacle = none

namespace Dictionary
variable {d e : Dictionary} {key name : String}

theorem IsWritable.save (h : d.IsWritable) : ∃ e, d.save = .ok e ∧ e.IsWritable := by
  unfold Dictionary.save
  cases hf : d.file with
  | none => exact ⟨d, rfl, h⟩
  | some file =>
    have free := h file hf
    dsimp only
    rw [free]
    refine ⟨_, rfl, fun other hother => ?_⟩
    cases hother
    rfl

/-- An addition to a writable dictionary fails before it changes anything, or is saved. -/
theorem IsWritable.put (h : d.IsWritable) (key name : String) :
    (∃ r, d.put key name = (r, d) ∧ r ≠ .ok true) ∨
      ∃ e, d.put key name = (.ok true, e) ∧ e.IsWritable ∧ e.chains = (d.withEntry key name).chains := by
  have outcome := put_outcome d key name
  generalize d.put key name = result at outcome
  cases outcome with
  | present _ => exact .inl ⟨_, rfl, by simp⟩
  | refused failure _ => exact .inl ⟨_, rfl, by simp⟩
  | unsaved failure _ _ unsaved =>
    have writable : (d.withEntry key name).IsWritable := h
    obtain ⟨e, saved, -⟩ := writable.save
    rw [saved] at unsaved
    cases unsaved
  | saved e _ _ saved =>
    have writable : (d.withEntry key name).IsWritable := h
    obtain ⟨e', saved', still⟩ := writable.save
    rw [saved] at saved'
    cases saved'
    exact .inr ⟨e, rfl, still, (save_eq_ok saved).2⟩

end Dictionary

/-! ### Tame sessions -/

theorem Vocabulary.spelled_congr (tree : w'.tree = w.tree) :
    Vocabulary.spelled atom allowed w' = .spelled atom allowed w := by
  have holds (p : Profile) : w'.Holds p = w.Holds p := by rw [World.Holds, World.Holds, tree]
  have leaf : Value.IsPlainLeaf allowed w' = Value.IsPlainLeaf allowed w := by
    funext v
    cases v with
    | function f => cases f <;> rfl
    | person p => exact holds p
    | _ => rfl
  rw [spelled, spelled, leaf]

namespace Session

/-- Nothing that a query can reach is a lambda, and every result that is kept is right for what
the session shows now. -/
structure Tame (s : Session) : Prop where
  sober : s.IsSober
  definitions : ∀ entry ∈ s.definitions, entry.2.IsTameIn s.world
  writable : s.dictionary.IsWritable
  sound : ∀ applied, Applies s.world applied → Sound s applied s

/-- The sessions show the same, but for the dictionary. -/
structure Alike (c s : Session) : Prop where
  definitions : s.definitions = c.definitions
  tree : s.world.tree = c.world.tree
  today : s.today = c.today

namespace Alike

theorem refl (c : Session) : c.Alike c :=
  ⟨rfl, rfl, rfl⟩

theorem trans (first : c.Alike s) (second : s.Alike t) : c.Alike t :=
  ⟨second.definitions.trans first.definitions, second.tree.trans first.tree,
    second.today.trans first.today⟩

theorem spelled (h : c.Alike s) :
    Vocabulary.spelled atom allowed s.world = .spelled atom allowed c.world :=
  Vocabulary.spelled_congr h.tree

theorem plainFor (h : c.Alike s) {t : Term Value} : t.IsPlainFor s ↔ t.IsPlainFor c := by
  have definition (name : String) : s.definition? name = c.definition? name := by
    rw [definition?, definition?, h.definitions]
  have same : Vocabulary.plainFor s = Vocabulary.plainFor c := by
    simp only [Vocabulary.plainFor, definition, Value.IsPlainIn, h.spelled]
  rw [Term.IsPlainFor, same]

end Alike

/-- What sessions are the same in that show the same. -/
theorem Sound.alike {applied : Function Value → List Value → Except Failure Value}
    (hs : Sound c applied s) : c.Alike s :=
  ⟨hs.definitions, congrArg World.tree hs.world, congrArg World.today hs.world⟩

namespace Tame

/-- A session that shows the same is tame if its results are sound. -/
theorem of_sound (hc : c.Tame) (sound : ∀ applied, Applies c.world applied → Sound c applied s) :
    s.Tame := by
  obtain ⟨applied, applies⟩ := exists_applies hc.sober.world
  have hs := sound applied applies
  have sober : s.IsSober :=
    ⟨hs.hosts.trans hc.sober.hosts, hs.world ▸ hc.sober.world, hs.definitions ▸ hc.sober.names⟩
  refine ⟨sober, ?_, ?_, fun applied' applies' => ?_⟩
  · rw [hs.definitions, hs.world]
    exact hc.definitions
  · have same : s.dictionary = c.dictionary := congrArg World.dictionary hs.world
    exact same ▸ hc.writable
  · rw [hs.world] at applies'
    exact (sound applied' applies').self hc.sober sober applies'

theorem sameButTree (hc : c.Tame) (same : c.SameButTree s) : s.Tame :=
  hc.of_sound fun applied applies => (hc.sound applied applies).sameButTree same

theorem remembered (hc : c.Tame) {key : String} (h : c.cache.get? key = some v) :
    v.IsTameIn c.world := by
  obtain ⟨applied, applies⟩ := exists_applies hc.sober.world
  exact ((hc.sound applied applies).isMeaning_of_get? h).value

/-- A result of a term that is not plain may be kept, since no plain term has its key. -/
theorem put (hc : c.Tame) {parts : List (Term Value)} (tame : (Term.compound parts).IsTameIn c.world)
    (other : ¬ (Term.compound parts).IsPlainFor c) (hv : v.IsTameIn c.world) :
    (c.mapCache (·.put (Term.compound parts).key v)).Tame := by
  refine hc.of_sound fun applied applies => (hc.sound applied applies).put ⟨hv, ⟨parts, tame, rfl⟩, ?_⟩
  intro others plain key
  have same := Term.expand_eq_of_tame plain.plainIn.tame tame key
  exact absurd (Term.plainFor_of_expand_eq hc.sober plain tame same) other

end Tame

/-- An addition to the dictionary keeps a session tame: it changes nothing, or forgets all
results. -/
theorem Tame.putKinshipTerm (hc : c.Tame) (key : String) {name : String}
    (plain : Text.IsPlain name.toList) :
    (c.putKinshipTerm key name).2.Tame ∧ c.Alike (c.putKinshipTerm key name).2 := by
  rcases hc.writable.put key name with ⟨r, unchanged, refused⟩ | ⟨e, added, writable, chains⟩
  · rw [putKinshipTerm_eq, unchanged, if_neg refused]
    exact ⟨hc, .refl c⟩
  · rw [putKinshipTerm_eq, added, if_pos rfl]
    have world := hc.sober.world
    have names (chain : List String) (part : String) (h : e.get? chain = some part) :
        Text.IsPlain part.toList := by
      have found : (c.dictionary.withEntry key name).get? chain = some part := by
        rwa [Dictionary.get?, ← chains]
      rw [Dictionary.get?_withEntry] at found
      split at found
      · cases found
        refine Text.isPlain_of_subset plain fun ch hch => ?_
        exact Text.mem_of_mem_trim (by simpa [Text.trimmed] using hch)
      · exact world.names chain part found
    have alike : c.Alike { c with dictionary := e, cache := c.cache.expunge } := ⟨rfl, rfl, rfl⟩
    refine ⟨⟨⟨hc.sober.hosts, ⟨world.unique, world.texts, world.birth, world.wedding, names,
      world.today⟩, hc.sober.names⟩, ?_, writable, fun applied _ => ⟨rfl, rfl, rfl, ?_, ?_⟩⟩, alike⟩
    · intro entry hentry
      rw [Value.IsTameIn, Vocabulary.tame, alike.spelled]
      exact hc.definitions entry hentry
    · simp [Cache.expunge]
    · simp [Cache.expunge]

end Session
end KinQuery
