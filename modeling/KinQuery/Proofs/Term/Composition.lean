import KinQuery.Kind
import KinQuery.Proofs.Term.Substitution
import KinQuery.Term.Name
import KinQuery.Value

/-! Substituting twice, and what a substitution leaves.

A compound has the same form after a substitution as before, so a second substitution takes it
apart in the same way and hides the same names. So two substitutions in a row are one, of the
first bindings where they bind a name and of the second elsewhere. The names left in a term are
those that were not bound, in order; and whatever is no bound name stays in its place. -/
namespace KinQuery

variable {V : Type} {bindings : Bindings V} {t u : Term V} {parts : List (Term V)}

namespace Bindings

/-- The bindings of `first`, and those of `second` for all other names. -/
def overlay (first second : Bindings V) : Bindings V :=
  fun name => (first name).or (second name)

@[simp] theorem overlay_self (bindings : Bindings V) : bindings.overlay bindings = bindings :=
  funext fun _ => Option.or_self

theorem hide_of_mem {names : List String} {name : String} (hidden : name ∈ names) :
    bindings.hide names name = .none := by
  simp [hide, hidden]

theorem hide_of_not_mem {names : List String} {name : String} (seen : name ∉ names) :
    bindings.hide names name = bindings name := by
  simp [hide, seen]

theorem hide_overlay (first second : Bindings V) (names : List String) :
    (first.overlay second).hide names = (first.hide names).overlay (second.hide names) := by
  funext name
  by_cases hidden : name ∈ names
  · simp [overlay, hide_of_mem hidden]
  · simp [overlay, hide_of_not_mem hidden]

/-- No keyword is bound. -/
def SparesKeywords (bindings : Bindings V) : Prop :=
  ∀ word ∈ keywords, bindings word = .none

theorem SparesKeywords.hide (spares : bindings.SparesKeywords) (names : List String) :
    (bindings.hide names).SparesKeywords := by
  intro word keyword
  rw [Bindings.hide, spares word keyword, ite_self]

end Bindings

namespace Term

/-! ### Two substitutions -/

theorem substitute_substitute (t : Term V) (first second : Bindings V) :
    (t.substitute first).substitute second = t.substitute (first.overlay second) := by
  induction t using Term.induction generalizing first second with
  | atom text =>
    rw [substitute, substitute, Bindings.overlay]
    cases first text with
    | some v => rw [substitute, Option.some_or]
    | none => rw [substitute, Option.none_or]
  | value v => rw [substitute, substitute, substitute]
  | compound parts ih =>
    have each (parts' : List (Term V)) (sub : parts' ⊆ parts) :
        (parts'.map (substitute first)).map (substitute second) =
          parts'.map (substitute (first.overlay second)) := by
      rw [List.map_map]
      exact List.map_congr_left fun part member => ih part (sub member) first second
    cases form parts with
    | lambda parameters body =>
      rw [substitute_lambda, substitute_lambda, substitute_lambda, ih body (by simp),
        Bindings.hide_overlay]
    | alone => rw [substitute_alone, substitute_alone, substitute_alone]
    | define name parts =>
      rw [substitute_definition, substitute_definition, substitute_definition,
        each parts fun part member => by simp [member]]
    | parts notDefine notLambda =>
      obtain ⟨notDefine', notLambda'⟩ := forms_map_substitute first notDefine notLambda
      rw [substitute_parts first notDefine notLambda, substitute_parts second notDefine' notLambda',
        substitute_parts _ notDefine notLambda, each parts fun _ => id]

/-! ### Free names -/

mutual

/-- The names that occur free in a term, in order, once for each occurrence. Every atom counts as
a name. A lambda of three parts binds the parameters of its list in its body; its second part and
that of a define term are no occurrences. -/
def freeNames : Term V → List String
  | .atom text => [text]
  | .value _ => []
  | .compound [.atom "lambda", parameters, body] =>
    "lambda" :: (freeNames body).filter (· ∉ parameters.declared)
  | .compound (.atom "define" :: _ :: parts) => "define" :: freeNamesOfParts parts
  | .compound parts => freeNamesOfParts parts

def freeNamesOfParts : List (Term V) → List String
  | [] => []
  | part :: parts => freeNames part ++ freeNamesOfParts parts

end

theorem freeNamesOfParts_eq_flatMap (parts : List (Term V)) :
    freeNamesOfParts parts = parts.flatMap freeNames := by
  induction parts with
  | nil => rfl
  | cons part parts ih => rw [freeNamesOfParts, ih, List.flatMap_cons]

theorem freeNames_lambda (parameters body : Term V) :
    (compound [.atom "lambda", parameters, body]).freeNames =
      "lambda" :: body.freeNames.filter (· ∉ parameters.declared) := by
  rw [freeNames]

theorem freeNames_alone : (compound [.atom "define"] : Term V).freeNames = ["define"] := by
  rfl

theorem freeNames_definition (name : Term V) (parts : List (Term V)) :
    (compound (.atom "define" :: name :: parts)).freeNames =
      "define" :: parts.flatMap freeNames := by
  rw [freeNames, freeNamesOfParts_eq_flatMap]

theorem freeNames_parts (notDefine : parts.head? ≠ some (.atom "define"))
    (notLambda : ∀ parameters body, parts ≠ [.atom "lambda", parameters, body]) :
    (compound parts).freeNames = parts.flatMap freeNames := by
  rw [← freeNamesOfParts_eq_flatMap, freeNames]
  · exact notLambda
  · rintro name rest rfl
    exact notDefine rfl

/-- The names left are those that were not bound. -/
theorem freeNames_substitute (t : Term V) (spares : bindings.SparesKeywords) :
    (t.substitute bindings).freeNames = t.freeNames.filter (fun name => (bindings name).isNone) := by
  induction t using Term.induction generalizing bindings with
  | atom text =>
    rw [substitute]
    cases bound : bindings text with
    | some v => simp [freeNames, bound]
    | none => simp [freeNames, bound]
  | value v => simp [substitute, freeNames]
  | compound parts ih =>
    have lambda : bindings "lambda" = none := spares "lambda" (by decide)
    have define : bindings "define" = none := spares "define" (by decide)
    have each (parts' : List (Term V)) (sub : parts' ⊆ parts) :
        (parts'.map (substitute bindings)).flatMap freeNames =
          (parts'.flatMap freeNames).filter (fun name => (bindings name).isNone) := by
      rw [List.filter_flatMap, List.flatMap_map, List.flatMap_def, List.flatMap_def]
      exact congrArg _ (List.map_congr_left fun part member => ih part (sub member) spares)
    cases form parts with
    | lambda parameters body =>
      -- names that the lambda hides are dropped on both sides, the others are bound alike
      rw [substitute_lambda, freeNames_lambda, freeNames_lambda, ih body (by simp) (spares.hide _),
        List.filter_cons, lambda, List.filter_filter, List.filter_filter]
      refine congrArg ("lambda" :: ·) (List.filter_congr fun name _ => ?_)
      by_cases hidden : name ∈ parameters.declared
      · simp [hidden]
      · simp [hidden, Bindings.hide_of_not_mem hidden]
    | alone =>
      rw [substitute_alone, freeNames_alone, List.filter_cons, define]
      rfl
    | define name parts =>
      rw [substitute_definition, freeNames_definition, freeNames_definition, List.filter_cons,
        define, each parts fun part member => by simp [member]]
      rfl
    | parts notDefine notLambda =>
      obtain ⟨notDefine', notLambda'⟩ := forms_map_substitute bindings notDefine notLambda
      rw [substitute_parts bindings notDefine notLambda, freeNames_parts notDefine' notLambda',
        freeNames_parts notDefine notLambda, each parts fun _ => id]

/-! ### Places -/

/-- The term at a place inside of a term. A place is given by the numbers of the parts on the way
to it. -/
def at? : List Nat → Term V → Option (Term V)
  | [], t => some t
  | i :: place, .compound parts => parts[i]?.bind (at? place)
  | _ :: _, _ => none

/-- What no substitution touches: values, and atoms that are not bound. -/
inductive Stays (bindings : Bindings V) : Term V → Prop
  | value (v : V) : Stays bindings (.value v)
  | atom {text : String} : bindings text = none → Stays bindings (.atom text)

namespace Stays

theorem hide (stays : Stays bindings u) (names : List String) : Stays (bindings.hide names) u := by
  cases stays with
  | value v => exact .value v
  | atom unbound => exact .atom (by rw [Bindings.hide, unbound, ite_self])

theorem substitute (stays : Stays bindings u) : u.substitute bindings = u := by
  cases stays with
  | value v => rw [Term.substitute]
  | atom unbound => rw [Term.substitute, unbound]

/-- It stays wherever it stands in a term. -/
theorem at?_substitute {place : List Nat} (stays : Stays bindings u) (here : t.at? place = some u) :
    (t.substitute bindings).at? place = some u := by
  induction place generalizing t bindings with
  | nil =>
    obtain rfl : t = u := Option.some.inj here
    exact congrArg some stays.substitute
  | cons i place ih =>
    cases t with
    | atom text => cases here
    | value v => cases here
    | compound parts =>
      obtain ⟨part, found, inside⟩ := Option.bind_eq_some_iff.1 here
      have mapped (parts : List (Term V)) (i : Nat) (found : parts[i]? = some part) :
          (parts.map (Term.substitute bindings))[i]?.bind (at? place) = some u := by
        rw [List.getElem?_map, found, Option.map_some, Option.bind_some]
        exact ih stays inside
      cases form parts with
      | lambda parameters body =>
        rw [substitute_lambda]
        match i, found with
        | 0, _ | 1, _ => exact here
        | 2, rfl => exact ih (stays.hide _) inside
      | alone =>
        rw [substitute_alone]
        exact here
      | define name parts =>
        rw [substitute_definition]
        match i, found with
        | 0, _ | 1, _ => exact here
        | i + 2, found => exact mapped parts i found
      | parts notDefine notLambda =>
        rw [substitute_parts bindings notDefine notLambda]
        exact mapped parts i found

end Stays

/-- Two substitutions in a row are one, of the first bindings over the second, so that a second
substitution of the same bindings changes nothing. The free names that a substitution leaves are
those that it does not bind, if it binds no keyword. Every value stays in its place, and so does
every string literal that is not bound. -/
theorem substitute_composes (first second : Bindings V) (spares : first.SparesKeywords)
    (t : Term V) :
    (t.substitute first).substitute second = t.substitute (first.overlay second) ∧
      (t.substitute first).substitute first = t.substitute first ∧
      (t.substitute first).freeNames = t.freeNames.filter (fun name => (first name).isNone) ∧
      (∀ place v, t.at? place = some (.value v) →
        (t.substitute first).at? place = some (.value v)) ∧
      ∀ place text, Kind.isQuoted text.toList = true → first text = none →
        t.at? place = some (.atom text) → (t.substitute first).at? place = some (.atom text) := by
  refine ⟨t.substitute_substitute first second, ?_, t.freeNames_substitute spares, ?_, ?_⟩
  · rw [substitute_substitute, Bindings.overlay_self]
  · exact fun place v => (Stays.value v).at?_substitute
  · exact fun place text _ unbound => (Stays.atom unbound).at?_substitute

/-- A lambda that hides one of two bound names, a lambda of four parts, and a literal. -/
theorem substitute_composes_hidden :
    let first : Bindings Value := .ofList [("x", .numeral .one), ("f", .boolean true)]
    let second : Bindings Value := .ofList [("x", .void), ("y", .void)]
    let t : Term Value := .compound [.atom "f", .atom "'x'",
      .compound [.atom "lambda", .compound [.atom "x"], .compound [.atom "x", .atom "y"]],
      .compound [.atom "lambda", .atom "x", .atom "y", .atom "z"]]
    first.SparesKeywords ∧
      (t.substitute first).substitute second = t.substitute (first.overlay second) ∧
      (t.substitute first).freeNames = ["'x'", "lambda", "y", "lambda", "y", "z"] ∧
      (t.substitute first).at? [1] = some (.atom "'x'") := by
  intro first second t
  have spares : first.SparesKeywords := by
    unfold Bindings.SparesKeywords
    decide
  obtain ⟨composed, -, names, -, literal⟩ := substitute_composes first second spares t
  refine ⟨spares, composed, ?_, literal [1] "'x'" (by decide) (by decide) rfl⟩
  rw [names]
  decide

/-- Bindings that bind no keyword may bind the text of a literal, and then the literal is replaced.
What stands where a lambda of three parts has its parameters is left alone, list or not. -/
theorem substitute_replaces_literal :
    let literal : Bindings Value := .ofList [("'a'", .numeral .one)]
    let name : Bindings Value := .ofList [("x", .numeral .one)]
    literal.SparesKeywords ∧ name.SparesKeywords ∧ Kind.isQuoted "'a'".toList = true ∧
      (Term.atom "'a'").substitute literal = .value (.numeral .one) ∧
      (Term.compound [.atom "lambda", .atom "x", .atom "x"]).substitute name =
        .compound [.atom "lambda", .atom "x", .value (.numeral .one)] := by
  intro literal name
  refine ⟨?_, ?_, by decide, rfl, rfl⟩
  · unfold Bindings.SparesKeywords
    decide
  · unfold Bindings.SparesKeywords
    decide

end Term
end KinQuery
