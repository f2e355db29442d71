import KinQuery.Term.Substitution

/-! Induction on terms, their height, and what substitution does to compounds. -/
namespace KinQuery.Term

variable {V : Type}

/-- Induction on terms that gives the hypothesis for every part of a compound. -/
@[elab_as_elim]
theorem induction {motive : Term V → Prop} (atom : ∀ text, motive (.atom text))
    (value : ∀ v, motive (.value v))
    (compound : ∀ parts, (∀ part ∈ parts, motive part) → motive (.compound parts)) :
    ∀ t, motive t := by
  intro t
  refine @Term.rec V motive (fun parts => ∀ part ∈ parts, motive part) atom compound value ?_ ?_ t
  · simp
  · intro part parts first rest
    exact List.forall_mem_cons.2 ⟨first, rest⟩

mutual

/-- How deep compounds are nested. -/
def height : Term V → Nat
  | .compound parts => heightOfParts parts + 1
  | _ => 0

def heightOfParts : List (Term V) → Nat
  | [] => 0
  | part :: parts => max (height part) (heightOfParts parts)

end

theorem height_lt {parts : List (Term V)} {part : Term V} (h : part ∈ parts) :
    part.height < (compound parts).height := by
  rw [height]
  induction parts with
  | nil => cases h
  | cons first parts ih =>
    rw [heightOfParts]
    rcases List.mem_cons.1 h with rfl | h
    · omega
    · have := ih h
      omega

theorem height_le_iff {parts : List (Term V)} {n : Nat} :
    (compound parts).height ≤ n + 1 ↔ ∀ part ∈ parts, part.height ≤ n := by
  rw [height, Nat.add_le_add_iff_right]
  induction parts with
  | nil => simp [heightOfParts]
  | cons first parts ih => rw [heightOfParts, Nat.max_le, ih, List.forall_mem_cons]

theorem substituteParts_eq_map (bindings : Bindings V) (parts : List (Term V)) :
    substituteParts bindings parts = parts.map (substitute bindings) := by
  induction parts with
  | nil => simp [substituteParts]
  | cons part parts ih => simp [substituteParts, ih]

/-- The three ways in which a compound is substituted. -/
inductive Substituted (bindings : Bindings V) : List (Term V) → Term V → Prop
  | lambda (parameters body : Term V) : Substituted bindings [.atom "lambda", parameters, body]
      (.compound [.atom "lambda", parameters, body.substitute (bindings.hide parameters.declared)])
  | define (kept parts : List (Term V)) : kept.head? = some (.atom "define") →
      Substituted bindings (kept ++ parts) (.compound (kept ++ parts.map (substitute bindings)))
  | parts (parts : List (Term V)) : parts.head? ≠ some (.atom "define") →
      (∀ parameters body, parts ≠ [.atom "lambda", parameters, body]) →
      Substituted bindings parts (.compound (parts.map (substitute bindings)))

theorem substitute_compound (bindings : Bindings V) (parts : List (Term V)) :
    Substituted bindings parts (substitute bindings (.compound parts)) := by
  unfold substitute
  split
  · rename_i h
    cases h
  · rename_i h
    cases h
  · rename_i h
    cases h
    exact .lambda _ _
  · rename_i h
    cases h
    exact .define [.atom "define"] [] rfl
  · rename_i name rest h
    cases h
    rw [substituteParts_eq_map]
    exact .define [.atom "define", name] rest rfl
  · rename_i whole notLambda notAlone notDefine h
    cases h
    rw [substituteParts_eq_map]
    refine .parts _ (fun head => ?_) notLambda
    cases parts with
    | nil => simp at head
    | cons first rest =>
      cases rest with
      | nil => exact notAlone (by simpa using head)
      | cons name rest => exact notDefine name rest (by simpa using head)

/-- Values are no compounds, so that substitution nests nothing deeper. -/
theorem height_substitute_le (t : Term V) (bindings : Bindings V) :
    (t.substitute bindings).height ≤ t.height := by
  induction t using Term.induction generalizing bindings with
  | atom text =>
    rw [substitute]
    cases bindings text <;> simp [height]
  | value v => simp [substitute, height]
  | compound parts ih =>
    have result := substitute_compound bindings parts
    generalize substitute bindings (.compound parts) = t at result
    have positive : (compound parts).height = heightOfParts parts + 1 := by rw [height]
    have below (part : Term V) (h : part ∈ parts) : part.height ≤ heightOfParts parts := by
      have := height_lt h
      omega
    rw [positive]
    cases result with
    | lambda parameters body =>
      refine height_le_iff.2 fun part hpart => ?_
      simp only [List.mem_cons, List.not_mem_nil, or_false] at hpart
      rcases hpart with rfl | rfl | rfl
      · exact below _ (by simp)
      · exact below _ (by simp)
      · exact Nat.le_trans (ih body (by simp) _) (below body (by simp))
    | define kept rest _ =>
      refine height_le_iff.2 fun part hpart => ?_
      rcases List.mem_append.1 hpart with hpart | hpart
      · exact below part (List.mem_append_left _ hpart)
      · obtain ⟨old, hold, rfl⟩ := List.mem_map.1 hpart
        have member := List.mem_append_right kept hold
        exact Nat.le_trans (ih old member _) (below old member)
    | parts parts _ _ =>
      refine height_le_iff.2 fun part hpart => ?_
      obtain ⟨old, hold, rfl⟩ := List.mem_map.1 hpart
      exact Nat.le_trans (ih old hold _) (below old hold)

/-- The forms of compounds that substitution tells apart. -/
inductive Form : List (Term V) → Prop
  | lambda (parameters body : Term V) : Form [.atom "lambda", parameters, body]
  | alone : Form [.atom "define"]
  | define (name : Term V) (parts : List (Term V)) : Form (.atom "define" :: name :: parts)
  | parts {parts : List (Term V)} : parts.head? ≠ some (.atom "define") →
      (∀ parameters body, parts ≠ [.atom "lambda", parameters, body]) → Form parts

theorem form (parts : List (Term V)) : Form parts := by
  by_cases lambda : ∃ parameters body, parts = [.atom "lambda", parameters, body]
  · obtain ⟨parameters, body, rfl⟩ := lambda
    exact .lambda parameters body
  · by_cases define : parts.head? = some (.atom "define")
    · obtain ⟨rest, rfl⟩ := List.head?_eq_some_iff.1 define
      cases rest with
      | nil => exact .alone
      | cons name parts => exact .define name parts
    · exact .parts define fun parameters body same => lambda ⟨parameters, body, same⟩

theorem substitute_lambda (bindings : Bindings V) (parameters body : Term V) :
    (compound [.atom "lambda", parameters, body]).substitute bindings =
      .compound [.atom "lambda", parameters,
        body.substitute (bindings.hide parameters.declared)] := by
  rw [substitute]

theorem substitute_alone (bindings : Bindings V) :
    (compound [.atom "define"]).substitute bindings = .compound [.atom "define"] := by
  rw [substitute]

theorem substitute_definition (bindings : Bindings V) (name : Term V) (parts : List (Term V)) :
    (compound (.atom "define" :: name :: parts)).substitute bindings =
      .compound (.atom "define" :: name :: parts.map (substitute bindings)) := by
  rw [substitute, substituteParts_eq_map]

theorem substitute_define (bindings : Bindings V) {parts : List (Term V)}
    (define : parts.head? = some (.atom "define")) :
    ∃ others, substitute bindings (.compound parts) = .compound others ∧
      others.head? = some (.atom "define") := by
  have result := substitute_compound bindings parts
  generalize substitute bindings (.compound parts) = t at result
  cases result with
  | lambda parameters body => simp at define
  | define kept rest head =>
    cases kept with
    | nil => cases head
    | cons first kept => exact ⟨_, rfl, head⟩
  | parts _ other _ => exact absurd define other

theorem substitute_parts (bindings : Bindings V) {parts : List (Term V)}
    (notDefine : parts.head? ≠ some (.atom "define"))
    (notLambda : ∀ parameters body, parts ≠ [.atom "lambda", parameters, body]) :
    substitute bindings (.compound parts) = .compound (parts.map (substitute bindings)) := by
  have result := substitute_compound bindings parts
  generalize substitute bindings (.compound parts) = t at result
  cases result with
  | lambda parameters body => exact absurd rfl (notLambda parameters body)
  | define kept rest head =>
    cases kept with
    | nil => cases head
    | cons first kept => exact absurd head notDefine
  | parts _ _ _ => rfl

/-- Substitution makes no atoms. -/
theorem substitute_eq_atom {bindings : Bindings V} {t : Term V} {text : String}
    (h : t.substitute bindings = .atom text) : t = .atom text := by
  cases t with
  | atom name =>
    rw [substitute] at h
    split at h
    · cases h
    · exact h
  | value v => simp [substitute] at h
  | compound parts =>
    have result := substitute_compound bindings parts
    rw [h] at result
    cases result

/-- A compound begins no special form that it did not begin before substitution. -/
theorem forms_map_substitute (bindings : Bindings V) {parts : List (Term V)}
    (notDefine : parts.head? ≠ some (.atom "define"))
    (notLambda : ∀ parameters body, parts ≠ [.atom "lambda", parameters, body]) :
    (parts.map (substitute bindings)).head? ≠ some (.atom "define") ∧
      ∀ parameters body, parts.map (substitute bindings) ≠ [.atom "lambda", parameters, body] := by
  constructor
  · intro define
    cases parts with
    | nil => cases define
    | cons part parts =>
      have head : part.substitute bindings = .atom "define" := Option.some.inj define
      exact notDefine (congrArg some (substitute_eq_atom head))
  · intro parameters body lambda
    rcases parts with _ | ⟨head, _ | ⟨second, _ | ⟨third, _ | _⟩⟩⟩ <;> simp at lambda
    obtain rfl := substitute_eq_atom lambda.1
    exact notLambda second third rfl

end KinQuery.Term
