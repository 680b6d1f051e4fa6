import DocExpr.Proofs.LiteralForm
import DocExpr.Proofs.Written
import Mathlib.Data.List.Forall2

/-!
# The pieces of a condition tell the condition

Two conditions whose pieces are alike, that is, equal up to the names and the values in them, are
the same tree, up to the same names and values.  What the pieces do not tell is an alias in a path
and the connective of a group of one operand.

The operator of a condition is told by the characters in front of it, up to a parenthesis, or by
those behind the path in front; no two operators start alike.  Once it is known the pieces are split
part by part: a path ends where no step follows, a list of candidates at its parenthesis, and a
group where no word joins another operand.  So each part is told wherever it may end, and the
induction carries what may follow a condition.

## Main definitions

* `Piece.Alike`, `Path.Alike`, `Condition.Alike`: equality up to names and values
* `Condition.IsProper`: the conditions in question
* `operatorChars`: the characters that tell the operator
* `Condition.Told`: a condition is told by its pieces, wherever a condition may end

## Main results

* `split_path`, `split_candidates`, `split_operands`: the parts of a condition
* `operatorChars_written`: the operator can be read off
* `Condition.IsProper.told`: a condition is told by its pieces
-/

namespace DocExpr

open Piece (ofText)

/-! ## Conditions that are alike -/

section Alike

variable (N : String → String → Prop) (V : AttributeValue → AttributeValue → Prop)

/-- The same character, or two names or two values that are related. -/
inductive Piece.Alike : Piece → Piece → Prop
  | char (c : Char) : Alike (.char c) (.char c)
  | name {field field' : String} (h : N field field') : Alike (.name field) (.name field')
  | value {value value' : AttributeValue} (h : V value value') :
    Alike (.value value) (.value value')

/-- The same ordinal, or two names that are related. -/
inductive Segment.Alike : Segment → Segment → Prop
  | field {name name' : String} (h : N name name') : Alike (.field name) (.field name')
  | index (ordinal : Nat) : Alike (.index ordinal) (.index ordinal)

/-- Paths with the same steps, up to the names.  Aliases do not count. -/
def Path.Alike (path path' : Path) : Prop :=
  List.Forall₂ (Segment.Alike N) path.segments path'.segments

/-- The same tree with the same operators, up to the names and the values.  For a group of one
operand the connective does not count. -/
inductive Condition.Alike : Condition → Condition → Prop
  | existence {path path' : Path} (hpath : path.Alike N path') (expected : Bool) :
    Alike (.existence path expected) (.existence path' expected)
  | hasType {path path' : Path} {tag tag' : AttributeValue} (hpath : path.Alike N path')
    (htag : V tag tag') : Alike (.hasType path tag) (.hasType path' tag')
  | compare {path path' : Path} (comparison : Comparison) {operand operand' : AttributeValue}
    (hpath : path.Alike N path') (hoperand : V operand operand') :
    Alike (.compare path comparison operand) (.compare path' comparison operand')
  | compareField {path path' : Path} (comparison : Comparison) {other other' : Path}
    (hpath : path.Alike N path') (hother : other.Alike N other') :
    Alike (.compareField path comparison other) (.compareField path' comparison other')
  | between {path path' : Path} {low low' high high' : AttributeValue}
    (hpath : path.Alike N path') (hlow : V low low') (hhigh : V high high') :
    Alike (.between path low high) (.between path' low' high')
  | beginsWith {path path' : Path} {start start' : AttributeValue} (hpath : path.Alike N path')
    (hstart : V start start') : Alike (.beginsWith path start) (.beginsWith path' start')
  | contains {path path' : Path} {operand operand' : AttributeValue} (hpath : path.Alike N path')
    (hoperand : V operand operand') : Alike (.contains path operand) (.contains path' operand')
  | oneOf {path path' : Path} {candidates candidates' : List AttributeValue}
    (hpath : path.Alike N path') (hcandidates : List.Forall₂ V candidates candidates') :
    Alike (.oneOf path candidates) (.oneOf path' candidates')
  | group {connective connective' : Connective} {operands operands' : List Condition}
    (hconnective : connective = connective' ∨ operands.length = 1)
    (hoperands : List.Forall₂ Alike operands operands') :
    Alike (.group connective operands) (.group connective' operands')
  | not {operand operand' : Condition} (h : Alike operand operand') :
    Alike (.not operand) (.not operand')

end Alike

/-! ## Conditions that say something -/

/-- The path starts at a field. -/
def Path.IsNamed (path : Path) : Prop := ∃ name steps, path.segments = .field name :: steps

/-- A condition without texts of the caller, without empty groups and with paths that start at a
field. -/
inductive Condition.IsProper : Condition → Prop
  | existence {path : Path} (hpath : path.IsNamed) (expected : Bool) :
    IsProper (.existence path expected)
  | hasType {path : Path} (hpath : path.IsNamed) (tag : AttributeValue) :
    IsProper (.hasType path tag)
  | compare {path : Path} (hpath : path.IsNamed) (comparison : Comparison)
    (operand : AttributeValue) : IsProper (.compare path comparison operand)
  | compareField {path other : Path} (hpath : path.IsNamed) (comparison : Comparison)
    (hother : other.IsNamed) : IsProper (.compareField path comparison other)
  | between {path : Path} (hpath : path.IsNamed) (low high : AttributeValue) :
    IsProper (.between path low high)
  | beginsWith {path : Path} (hpath : path.IsNamed) (start : AttributeValue) :
    IsProper (.beginsWith path start)
  | contains {path : Path} (hpath : path.IsNamed) (operand : AttributeValue) :
    IsProper (.contains path operand)
  | oneOf {path : Path} (hpath : path.IsNamed) (candidates : List AttributeValue) :
    IsProper (.oneOf path candidates)
  | group (connective : Connective) {operands : List Condition} (hne : operands ≠ [])
    (h : ∀ operand ∈ operands, IsProper operand) : IsProper (.group connective operands)
  | not {operand : Condition} (h : IsProper operand) : IsProper (.not operand)

/-! ## Splitting alike texts -/

section Split

variable {N : String → String → Prop} {V : AttributeValue → AttributeValue → Prop}
  {v w : List Piece}

/-- A text that stands on both sides is cut off. -/
theorem split_text (text : String)
    (h : List.Forall₂ (Piece.Alike N V) (ofText text ++ v) (ofText text ++ w)) :
    List.Forall₂ (Piece.Alike N V) v w := by
  have hdrop := List.forall₂_drop (ofText text).length h
  rwa [List.drop_left, List.drop_left] at hdrop

theorem split_name {field field' : String}
    (h : List.Forall₂ (Piece.Alike N V) (.name field :: v) (.name field' :: w)) :
    N field field' ∧ List.Forall₂ (Piece.Alike N V) v w := by
  obtain ⟨hpiece, hrest⟩ := List.forall₂_cons.mp h
  cases hpiece with
  | name hname => exact ⟨hname, hrest⟩

theorem split_value {value value' : AttributeValue}
    (h : List.Forall₂ (Piece.Alike N V) (.value value :: v) (.value value' :: w)) :
    V value value' ∧ List.Forall₂ (Piece.Alike N V) v w := by
  obtain ⟨hpiece, hrest⟩ := List.forall₂_cons.mp h
  cases hpiece with
  | value hvalue => exact ⟨hvalue, hrest⟩

/-- The characters before the first name or value. -/
def leadingChars : List Piece → List Char
  | .char c :: rest => c :: leadingChars rest
  | _ => []

theorem leadingChars_ofText (text : String) (v : List Piece) :
    leadingChars (ofText text ++ v) = text.toList ++ leadingChars v := by
  rw [ofText]
  induction text.toList with
  | nil => rfl
  | cons c rest ih => rw [List.map_cons, List.cons_append, leadingChars, ih, List.cons_append]

theorem leadingChars_eq (h : List.Forall₂ (Piece.Alike N V) v w) :
    leadingChars v = leadingChars w := by
  induction h with
  | nil => rfl
  | cons hpiece _ ih =>
    cases hpiece with
    | char c => rw [leadingChars, leadingChars, ih]
    | name | value => rfl

/-- What may follow a path: no further step. -/
def EndsPath (v : List Piece) : Prop :=
  (leadingChars v).head? ≠ some '.' ∧ (leadingChars v).head? ≠ some '['

/-- What may follow a condition: a closing parenthesis, with a blank before it or without. -/
def EndsCondition (v : List Piece) : Prop :=
  v = [] ∨ (∃ rest, v = .char ')' :: rest) ∨ ∃ rest, v = .char ' ' :: .char ')' :: rest

theorem endsPath_ofText {text : String} (hne : text.toList ≠ [])
    (h : text.toList.head? ≠ some '.' ∧ text.toList.head? ≠ some '[') :
    EndsPath (ofText text ++ v) := by
  rwa [EndsPath, leadingChars_ofText, List.head?_append_of_ne_nil _ hne]

theorem EndsCondition.endsPath (h : EndsCondition v) : EndsPath v := by
  rcases h with rfl | ⟨rest, rfl⟩ | ⟨rest, rfl⟩ <;> simp [EndsPath, leadingChars]

/-- Ordinals are told by their digits, which end at the bracket. -/
theorem split_ordinal {ordinal ordinal' : Nat}
    (h : List.Forall₂ (Piece.Alike N V) (ofText ("[" ++ toString ordinal ++ "]") ++ v)
      (ofText ("[" ++ toString ordinal' ++ "]") ++ w)) :
    ordinal = ordinal' ∧ List.Forall₂ (Piece.Alike N V) v w := by
  have hchars := leadingChars_eq h
  have hlist : ∀ ordinal : Nat, ("[" ++ toString ordinal ++ "]").toList =
      '[' :: (Nat.toDigits 10 ordinal ++ [']']) := fun ordinal => by simp [Nat.repr]
  rw [leadingChars_ofText, leadingChars_ofText, hlist, hlist, List.cons_append, List.cons_append,
    List.append_assoc, List.append_assoc] at hchars
  obtain ⟨rfl, -⟩ := Path.ordinal_eq_of_append_eq (List.cons.inj hchars).2
  exact ⟨rfl, split_text _ h⟩

theorem writtenSteps_field (name : String) (steps : List Segment) :
    writtenSteps (.field name :: steps) ++ v =
      .char '.' :: .name name :: (writtenSteps steps ++ v) := rfl

theorem writtenSteps_index (ordinal : Nat) (steps : List Segment) :
    writtenSteps (.index ordinal :: steps) ++ v =
      ofText ("[" ++ toString ordinal ++ "]") ++ (writtenSteps steps ++ v) := by
  rw [writtenSteps, List.append_assoc]

theorem head?_field (name : String) (steps : List Segment) :
    (leadingChars (writtenSteps (.field name :: steps) ++ v)).head? = some '.' := rfl

theorem head?_index (ordinal : Nat) (steps : List Segment) :
    (leadingChars (writtenSteps (.index ordinal :: steps) ++ v)).head? = some '[' := by
  rw [writtenSteps_index, leadingChars_ofText]
  simp

/-- Behind a path that has ended there is no step. -/
theorem not_endsPath_steps (step : Segment) (steps : List Segment) :
    ¬EndsPath (writtenSteps (step :: steps) ++ v) := by
  intro h
  cases step with
  | field name => exact h.1 (head?_field name steps)
  | index ordinal => exact h.2 (head?_index ordinal steps)

theorem endsPath_iff (h : List.Forall₂ (Piece.Alike N V) v w) : EndsPath v ↔ EndsPath w := by
  rw [EndsPath, EndsPath, leadingChars_eq h]

/-- The steps behind the first name of a path. -/
theorem split_steps {steps steps' : List Segment} (hv : EndsPath v) (hw : EndsPath w)
    (h : List.Forall₂ (Piece.Alike N V) (writtenSteps steps ++ v) (writtenSteps steps' ++ w)) :
    List.Forall₂ (Segment.Alike N) steps steps' ∧ List.Forall₂ (Piece.Alike N V) v w := by
  induction steps generalizing steps' with
  | nil =>
    cases steps' with
    | nil => exact ⟨.nil, h⟩
    | cons step' rest' => exact absurd ((endsPath_iff h).mp hv) (not_endsPath_steps step' rest')
  | cons step rest ih =>
    cases steps' with
    | nil => exact absurd ((endsPath_iff h).mpr hw) (not_endsPath_steps step rest)
    | cons step' rest' =>
      -- The first character tells whether a step is a name or an ordinal.
      have hsign := congrArg List.head? (leadingChars_eq h)
      cases step with
      | field name =>
        cases step' with
        | field name' =>
          rw [writtenSteps_field, writtenSteps_field] at h
          obtain ⟨hname, hrest⟩ := split_name (List.forall₂_cons.mp h).2
          obtain ⟨hsteps, htail⟩ := ih hrest
          exact ⟨.cons (.field hname) hsteps, htail⟩
        | index ordinal' =>
          rw [head?_index, head?_field] at hsign
          cases hsign
      | index ordinal =>
        cases step' with
        | field name' =>
          rw [head?_index, head?_field] at hsign
          cases hsign
        | index ordinal' =>
          rw [writtenSteps_index, writtenSteps_index] at h
          obtain ⟨rfl, hrest⟩ := split_ordinal h
          obtain ⟨hsteps, htail⟩ := ih hrest
          exact ⟨.cons (.index ordinal) hsteps, htail⟩

/-- A path ends where no further step follows. -/
theorem split_path {path path' : Path} (hpath : path.IsNamed) (hpath' : path'.IsNamed)
    (hv : EndsPath v) (hw : EndsPath w)
    (h : List.Forall₂ (Piece.Alike N V) (path.written ++ v) (path'.written ++ w)) :
    path.Alike N path' ∧ List.Forall₂ (Piece.Alike N V) v w := by
  obtain ⟨name, steps, hsteps⟩ := hpath
  obtain ⟨name', steps', hsteps'⟩ := hpath'
  rw [Path.written, Path.written, hsteps, hsteps'] at h
  obtain ⟨hname, hrest⟩ := split_name h
  obtain ⟨hall, htail⟩ := split_steps hv hw hrest
  rw [Path.Alike, hsteps, hsteps']
  exact ⟨.cons (.field hname) hall, htail⟩

theorem candidates_cons_cons (value next : AttributeValue) (rest : List AttributeValue) :
    (ofText ", ").intercalate ((value :: next :: rest).map fun value => [.value value]) ++ v =
      .value value :: (ofText ", " ++
        ((ofText ", ").intercalate ((next :: rest).map fun value => [.value value]) ++ v)) := by
  rw [List.map_cons, List.map_cons, List.intercalate_cons_cons]
  simp

/-- The candidates of a list up to its closing parenthesis. -/
theorem split_candidates {candidates candidates' : List AttributeValue}
    (h : List.Forall₂ (Piece.Alike N V)
      ((ofText ", ").intercalate (candidates.map fun value => [.value value]) ++ (ofText ")" ++ v))
      ((ofText ", ").intercalate (candidates'.map fun value => [.value value]) ++
        (ofText ")" ++ w))) :
    List.Forall₂ V candidates candidates' ∧ List.Forall₂ (Piece.Alike N V) v w := by
  induction candidates generalizing candidates' with
  | nil =>
    cases candidates' with
    | nil => exact ⟨.nil, split_text ")" h⟩
    | cons value' rest' => cases rest' <;> cases leadingChars_eq h
  | cons value rest ih =>
    cases candidates' with
    | nil => cases rest <;> cases leadingChars_eq h
    | cons value' rest' =>
      -- A comma or the parenthesis tells whether there is another candidate.
      cases rest with
      | nil =>
        cases rest' with
        | nil =>
          obtain ⟨hvalue, htail⟩ := split_value h
          exact ⟨.cons hvalue .nil, split_text ")" htail⟩
        | cons next' rest' => cases leadingChars_eq (split_value h).2
      | cons next rest =>
        cases rest' with
        | nil => cases leadingChars_eq (split_value h).2
        | cons next' rest' =>
          rw [candidates_cons_cons, candidates_cons_cons] at h
          obtain ⟨hvalue, htail⟩ := split_value h
          obtain ⟨hrest, htail⟩ := ih (split_text ", " htail)
          exact ⟨.cons hvalue hrest, htail⟩

end Split

/-! ## The operator of a condition -/

/-- What a condition is apart from its operands. -/
inductive Operator where
  | fixed
  | existence (expected : Bool)
  | hasType
  | comparison (comparison : Comparison)
  | between
  | beginsWith
  | contains
  | oneOf
  | group
  | not

namespace Operator

/-- The text that an operator is told by: it stands in front, or behind the path in front. -/
def opening : Operator → String
  | fixed => ""
  | existence true => "attribute_exists("
  | existence false => "attribute_not_exists("
  | hasType => "attribute_type("
  | comparison c => " " ++ c.sign ++ " "
  | between => " between "
  | beginsWith => "begins_with("
  | contains => "contains("
  | oneOf => " in ("
  | group => "("
  | not => "NOT ("

/-- The operator with an opening. -/
def ofOpening? (text : String) : Option Operator :=
  [fixed, existence true, existence false, hasType, comparison .eq, comparison .ne, comparison .lt,
    comparison .le, comparison .gt, comparison .ge, between, beginsWith, contains, oneOf, group,
    not].find? fun operator => operator.opening = text

theorem ofOpening?_opening (operator : Operator) :
    ofOpening? operator.opening = some operator := by
  cases operator with
  | existence expected => cases expected <;> rfl
  | comparison comparison => cases comparison <;> rfl
  | _ => rfl

theorem opening_injective {a b : Operator} (h : a.opening = b.opening) : a = b := by
  have hfind := ofOpening?_opening a
  rw [h, ofOpening?_opening b] at hfind
  exact (Option.some.inj hfind).symm

end Operator

/-- The operator of a condition.  That of a group is told apart later, by what is between two
operands. -/
def Condition.operator : Condition → Operator
  | .fixed .. => .fixed
  | .existence _ expected => .existence expected
  | .hasType .. => .hasType
  | .compare _ comparison _ | .compareField _ comparison _ => .comparison comparison
  | .between .. => .between
  | .beginsWith .. => .beginsWith
  | .contains .. => .contains
  | .oneOf .. => .oneOf
  | .group .. => .group
  | .not _ => .not

/-- The characters up to the first parenthesis. -/
def upToParenthesis : List Char → List Char
  | [] => []
  | c :: rest => if c = '(' then [c] else c :: upToParenthesis rest

theorem upToParenthesis_append {cs : List Char} (h : '(' ∈ cs) (rest : List Char) :
    upToParenthesis (cs ++ rest) = upToParenthesis cs := by
  induction cs with
  | nil => cases h
  | cons c cs ih =>
    rw [List.cons_append, upToParenthesis, upToParenthesis]
    by_cases hc : c = '('
    · rw [if_pos hc, if_pos hc]
    · rw [if_neg hc, if_neg hc, ih ((List.mem_cons.mp h).resolve_left (Ne.symm hc))]

/-- The characters up to the first parenthesis, name or value. -/
def openingChars (v : List Piece) : List Char := upToParenthesis (leadingChars v)

/-- Whether a piece is anything but a blank. -/
def Piece.isSolid : Piece → Bool
  | .char c => c ≠ ' '
  | _ => true

/-- The characters that tell the operator. -/
def operatorChars : List Piece → List Char
  | .name _ :: rest => openingChars (rest.dropWhile Piece.isSolid)
  | v => openingChars v

section Operator

variable {N : String → String → Prop} {V : AttributeValue → AttributeValue → Prop}
  {v w : List Piece}

theorem forall₂_dropWhile_isSolid (h : List.Forall₂ (Piece.Alike N V) v w) :
    List.Forall₂ (Piece.Alike N V) (v.dropWhile Piece.isSolid) (w.dropWhile Piece.isSolid) := by
  induction h with
  | nil => exact .nil
  | @cons piece piece' rest rest' hpiece hrest ih =>
    have hsolid : piece.isSolid = piece'.isSolid := by
      cases hpiece <;> rfl
    rw [List.dropWhile_cons, List.dropWhile_cons, ← hsolid]
    split
    · exact ih
    · exact .cons hpiece hrest

theorem operatorChars_eq (h : List.Forall₂ (Piece.Alike N V) v w) :
    operatorChars v = operatorChars w := by
  have hleading := congrArg upToParenthesis (leadingChars_eq h)
  cases h with
  | nil => rfl
  | cons hpiece hrest =>
    cases hpiece with
    | name => exact congrArg upToParenthesis (leadingChars_eq (forall₂_dropWhile_isSolid hrest))
    | char | value => exact hleading

/-- There is no blank inside an ordinal. -/
theorem isSolid_of_ordinal {ordinal : Nat} {piece : Piece}
    (h : piece ∈ ofText ("[" ++ toString ordinal ++ "]")) : piece.isSolid = true := by
  obtain ⟨c, hc, rfl⟩ := List.mem_map.mp h
  have hdigit : ' ' ∉ Nat.toDigits 10 ordinal := fun hmem =>
    absurd (Nat.isDigit_of_mem_toDigits (by decide) (by decide) hmem) (by decide)
  rw [Piece.isSolid, decide_eq_true_iff]
  rintro rfl
  simp [Nat.repr, hdigit] at hc

/-- There is no blank inside a path. -/
theorem dropWhile_writtenSteps (steps : List Segment) :
    (writtenSteps steps ++ .char ' ' :: v).dropWhile Piece.isSolid = .char ' ' :: v := by
  induction steps with
  | nil => rfl
  | cons step rest ih =>
    cases step with
    | field name => exact ih
    | index ordinal =>
      rw [writtenSteps_index, List.dropWhile_append_of_pos fun _ => isSolid_of_ordinal, ih]

theorem openingChars_ofText {text : String} (h : '(' ∈ text.toList) :
    openingChars (ofText text ++ v) = upToParenthesis text.toList := by
  rw [openingChars, leadingChars_ofText, upToParenthesis_append h]

/-- A text in front tells the operator if it has a parenthesis. -/
theorem operatorChars_ofText {text : String} (operator : Operator) (h : '(' ∈ text.toList)
    (hopening : upToParenthesis text.toList = operator.opening.toList) :
    operatorChars (ofText text ++ v) = operator.opening.toList := by
  rw [← hopening, ← openingChars_ofText (v := v) h, ofText]
  cases htext : text.toList with
  | nil =>
    rw [htext] at h
    cases h
  | cons c cs => rfl

/-- Behind a path in front the operator is told by what comes first. -/
theorem operatorChars_path {path : Path} (hpath : path.IsNamed) {text : String}
    (h : text.toList.head? = some ' ') :
    operatorChars (path.written ++ (ofText text ++ v)) =
      upToParenthesis (text.toList ++ leadingChars v) := by
  obtain ⟨name, steps, hsteps⟩ := hpath
  obtain ⟨cs, hcs⟩ := List.head?_eq_some_iff.mp h
  rw [← leadingChars_ofText, Path.written, hsteps, ofText, hcs]
  exact congrArg openingChars (dropWhile_writtenSteps steps)

/-- The sign of a comparison stands between a path and a name or value. -/
theorem operatorChars_comparison {path : Path} (hpath : path.IsNamed) (comparison : Comparison)
    (hv : leadingChars v = []) :
    operatorChars (path.written ++ (ofText (" " ++ comparison.sign ++ " ") ++ v)) =
      (Operator.comparison comparison).opening.toList := by
  rw [operatorChars_path hpath (by cases comparison <;> decide), hv, List.append_nil]
  cases comparison <;> decide

theorem written_group_singleton (connective : Connective) (operand : Condition) :
    Condition.written (.group connective [operand]) ++ v =
      ofText "( " ++ (operand.written ++ (ofText " )" ++ v)) := by
  simp only [Condition.written, Condition.writtenOperands, List.intercalate_singleton,
    List.append_assoc]

theorem written_group_cons (connective : Connective) (operand next : Condition)
    (rest : List Condition) :
    Condition.written (.group connective (operand :: next :: rest)) ++ v =
      ofText "( " ++ (operand.written ++ (ofText " )" ++ (ofText (" " ++ connective.word ++ " ") ++
        (Condition.written (.group connective (next :: rest)) ++ v)))) := by
  simp only [Condition.written, Condition.writtenOperands, List.intercalate_cons_cons,
    List.append_assoc]

/-- **The operator of a condition can be read off.** -/
theorem operatorChars_written {condition : Condition} (h : condition.IsProper) :
    operatorChars (condition.written ++ v) = condition.operator.opening.toList := by
  cases h with
  | existence hpath expected =>
    cases expected with
    | true =>
      simp only [Condition.written, List.append_assoc]
      exact operatorChars_ofText (.existence true) (by decide) (by decide)
    | false =>
      simp only [Condition.written, List.append_assoc]
      exact operatorChars_ofText (.existence false) (by decide) (by decide)
  | hasType hpath tag =>
    simp only [Condition.written, List.append_assoc]
    exact operatorChars_ofText .hasType (by decide) (by decide)
  | compare hpath comparison operand =>
    simp only [Condition.written, List.append_assoc]
    exact operatorChars_comparison hpath comparison rfl
  | compareField hpath comparison hother =>
    obtain ⟨name, steps, hsteps⟩ := hother
    simp only [Condition.written, List.append_assoc]
    exact operatorChars_comparison hpath comparison (by rw [Path.written, hsteps]; rfl)
  | between hpath low high =>
    simp only [Condition.written, List.append_assoc]
    rw [operatorChars_path hpath (by decide)]
    exact (by decide : upToParenthesis (" between ".toList ++ []) = Operator.between.opening.toList)
  | beginsWith hpath start =>
    simp only [Condition.written, List.append_assoc]
    exact operatorChars_ofText .beginsWith (by decide) (by decide)
  | contains hpath operand =>
    simp only [Condition.written, List.append_assoc]
    exact operatorChars_ofText .contains (by decide) (by decide)
  | oneOf hpath candidates =>
    simp only [Condition.written, List.append_assoc]
    rw [operatorChars_path hpath (by decide), upToParenthesis_append (by decide)]
    exact (by decide : upToParenthesis " in (".toList = Operator.oneOf.opening.toList)
  | @group connective operands hne h =>
    obtain ⟨operand, rest, rfl⟩ := List.exists_cons_of_ne_nil hne
    cases rest with
    | nil =>
      rw [written_group_singleton]
      exact operatorChars_ofText .group (by decide) (by decide)
    | cons next rest =>
      rw [written_group_cons]
      exact operatorChars_ofText .group (by decide) (by decide)
  | not h =>
    simp only [Condition.written, List.append_assoc]
    exact operatorChars_ofText .not (by decide) (by decide)

end Operator

/-! ## Splitting conditions -/

section Conditions

variable (N : String → String → Prop) (V : AttributeValue → AttributeValue → Prop)

/-- The condition is told by its pieces, wherever a condition may end. -/
def Condition.Told (condition : Condition) : Prop :=
  ∀ {other : Condition} {v w : List Piece}, other.IsProper → EndsCondition v → EndsCondition w →
    List.Forall₂ (Piece.Alike N V) (condition.written ++ v) (other.written ++ w) →
      condition.Alike N V other ∧ List.Forall₂ (Piece.Alike N V) v w

variable {N V} {v w : List Piece}

/-- Where a condition may end there is no word that would join another operand. -/
theorem leadingChars_ne_joined (hv : EndsCondition v) (connective : Connective) :
    leadingChars v ≠ leadingChars (ofText (" " ++ connective.word ++ " ") ++ w) := by
  intro h
  obtain ⟨c, cs, hword, hc⟩ : ∃ c cs, (" " ++ connective.word ++ " ").toList = ' ' :: c :: cs ∧
      c ≠ ')' := by
    cases connective with
    | and => exact ⟨'a', ['n', 'd', ' '], by decide, by decide⟩
    | or => exact ⟨'o', ['r', ' '], by decide, by decide⟩
  rw [leadingChars_ofText, hword] at h
  rcases hv with rfl | ⟨rest, rfl⟩ | ⟨rest, rfl⟩
  · cases h
  · cases h
  · exact hc (List.cons.inj (List.cons.inj h).2).1.symm

/-- The word between two operands tells the connective. -/
theorem connective_eq {connective connective' : Connective}
    (h : List.Forall₂ (Piece.Alike N V) (ofText (" " ++ connective.word ++ " ") ++ v)
      (ofText (" " ++ connective'.word ++ " ") ++ w)) : connective = connective' := by
  have hchars := leadingChars_eq h
  rw [leadingChars_ofText, leadingChars_ofText] at hchars
  have hsecond := congrArg (fun cs => cs[1]?) hchars
  cases connective <;> cases connective' <;> first | rfl | cases hsecond

/-- The operands of a group. -/
theorem split_operands {connective connective' : Connective} {operands operands' : List Condition}
    (hne : operands ≠ []) (hne' : operands' ≠ []) (htold : ∀ operand ∈ operands, operand.Told N V)
    (hproper : ∀ operand ∈ operands', operand.IsProper)
    (hv : EndsCondition v) (hw : EndsCondition w)
    (h : List.Forall₂ (Piece.Alike N V) (Condition.written (.group connective operands) ++ v)
      (Condition.written (.group connective' operands') ++ w)) :
    (connective = connective' ∨ operands.length = 1) ∧
      List.Forall₂ (Condition.Alike N V) operands operands' ∧
        List.Forall₂ (Piece.Alike N V) v w := by
  have hends : ∀ u, EndsCondition (ofText " )" ++ u) := fun u => .inr (.inr ⟨u, rfl⟩)
  induction operands generalizing operands' with
  | nil => exact absurd rfl hne
  | cons operand rest ih =>
    obtain ⟨operand', rest', rfl⟩ := List.exists_cons_of_ne_nil hne'
    rw [List.forall_mem_cons] at htold hproper
    -- The first operand is told, and then it is seen whether there is another one.
    cases rest with
    | nil =>
      rw [written_group_singleton] at h
      cases rest' with
      | nil =>
        rw [written_group_singleton] at h
        obtain ⟨hfirst, htail⟩ := htold.1 hproper.1 (hends _) (hends _) (split_text "( " h)
        exact ⟨.inr rfl, .cons hfirst .nil, split_text " )" htail⟩
      | cons next' rest' =>
        rw [written_group_cons] at h
        obtain ⟨-, htail⟩ := htold.1 hproper.1 (hends _) (hends _) (split_text "( " h)
        exact absurd (leadingChars_eq (split_text " )" htail))
          (leadingChars_ne_joined hv connective')
    | cons next rest =>
      rw [written_group_cons] at h
      cases rest' with
      | nil =>
        rw [written_group_singleton] at h
        obtain ⟨-, htail⟩ := htold.1 hproper.1 (hends _) (hends _) (split_text "( " h)
        exact absurd (leadingChars_eq (split_text " )" htail)).symm
          (leadingChars_ne_joined hw connective)
      | cons next' rest' =>
        rw [written_group_cons] at h
        obtain ⟨hfirst, htail⟩ := htold.1 hproper.1 (hends _) (hends _) (split_text "( " h)
        have hjoined := split_text " )" htail
        obtain rfl := connective_eq hjoined
        obtain ⟨-, hrest, htail⟩ := ih (by simp) (by simp) htold.2 hproper.2 (split_text _ hjoined)
        exact ⟨.inl rfl, .cons hfirst hrest, htail⟩

/-- A call on a path. -/
theorem split_call {path path' : Path} (hpath : path.IsNamed) (hpath' : path'.IsNamed)
    {text : String} (h : List.Forall₂ (Piece.Alike N V)
      (ofText text ++ path.written ++ ofText ")" ++ v)
      (ofText text ++ path'.written ++ ofText ")" ++ w)) :
    path.Alike N path' ∧ List.Forall₂ (Piece.Alike N V) v w := by
  have hend : ∀ u, EndsPath (ofText ")" ++ u) := fun u => endsPath_ofText (by decide) (by decide)
  simp only [List.append_assoc] at h
  obtain ⟨hpath, htail⟩ := split_path hpath hpath' (hend v) (hend w) (split_text text h)
  exact ⟨hpath, split_text ")" htail⟩

/-- A call on a path and a value. -/
theorem split_call_two {path path' : Path} {value value' : AttributeValue} (hpath : path.IsNamed)
    (hpath' : path'.IsNamed) {text : String} (h : List.Forall₂ (Piece.Alike N V)
      (ofText text ++ path.written ++ ofText ", " ++ [.value value] ++ ofText ")" ++ v)
      (ofText text ++ path'.written ++ ofText ", " ++ [.value value'] ++ ofText ")" ++ w)) :
    path.Alike N path' ∧ V value value' ∧ List.Forall₂ (Piece.Alike N V) v w := by
  have hend : ∀ u, EndsPath (ofText ", " ++ u) := fun u => endsPath_ofText (by decide) (by decide)
  simp only [List.append_assoc] at h
  obtain ⟨hpath, htail⟩ := split_path hpath hpath' (hend _) (hend _) (split_text text h)
  obtain ⟨hvalue, htail⟩ := split_value (split_text ", " htail)
  exact ⟨hpath, hvalue, split_text ")" htail⟩

/-- A path before an infix operator. -/
theorem split_infix {path path' : Path} (hpath : path.IsNamed) (hpath' : path'.IsNamed)
    {text : String} (hblank : text.toList.head? = some ' ') (h : List.Forall₂ (Piece.Alike N V)
      (path.written ++ (ofText text ++ v)) (path'.written ++ (ofText text ++ w))) :
    path.Alike N path' ∧ List.Forall₂ (Piece.Alike N V) v w := by
  have hne : text.toList ≠ [] := by
    intro hnil
    rw [hnil] at hblank
    cases hblank
  have hend : ∀ u, EndsPath (ofText text ++ u) := fun u =>
    endsPath_ofText hne (by rw [hblank]; decide)
  obtain ⟨hpath, htail⟩ := split_path hpath hpath' (hend v) (hend w) h
  exact ⟨hpath, split_text text htail⟩

theorem head?_comparison (comparison : Comparison) :
    (" " ++ comparison.sign ++ " ").toList.head? = some ' ' := by
  cases comparison <;> decide

/-- A path is no value. -/
theorem path_not_alike {path : Path} (hpath : path.IsNamed) {value : AttributeValue} :
    ¬List.Forall₂ (Piece.Alike N V) (path.written ++ v) (.value value :: w) := by
  obtain ⟨name, steps, hsteps⟩ := hpath
  rw [Path.written, hsteps]
  intro h
  cases (List.forall₂_cons.mp h).1

theorem value_not_alike {path : Path} (hpath : path.IsNamed) {value : AttributeValue} :
    ¬List.Forall₂ (Piece.Alike N V) (.value value :: w) (path.written ++ v) := by
  obtain ⟨name, steps, hsteps⟩ := hpath
  rw [Path.written, hsteps]
  intro h
  cases (List.forall₂_cons.mp h).1

theorem operator_eq {condition other : Condition} (hcondition : condition.IsProper)
    (hother : other.IsProper)
    (h : List.Forall₂ (Piece.Alike N V) (condition.written ++ v) (other.written ++ w)) :
    condition.operator = other.operator := by
  have hchars := operatorChars_eq h
  rw [operatorChars_written hcondition, operatorChars_written hother] at hchars
  exact Operator.opening_injective (String.toList_inj.mp hchars)

/-- **A condition is told by its pieces**, wherever a condition may end. -/
theorem Condition.IsProper.told {condition : Condition} (h : condition.IsProper) :
    condition.Told N V := by
  intro other v w hother hv hw halike
  have hoperator := operator_eq h hother halike
  -- The operators agree, so both conditions are made by the same constructor.
  induction h generalizing other v w with
  | existence hpath expected =>
    cases hother with
    | existence hpath' expected' =>
      obtain rfl := Operator.existence.inj hoperator
      cases expected with
      | true =>
        obtain ⟨hpath, htail⟩ := split_call hpath hpath' halike
        exact ⟨.existence hpath true, htail⟩
      | false =>
        obtain ⟨hpath, htail⟩ := split_call hpath hpath' halike
        exact ⟨.existence hpath false, htail⟩
    | _ => cases hoperator
  | hasType hpath tag =>
    cases hother with
    | hasType hpath' tag' =>
      obtain ⟨hpath, htag, htail⟩ := split_call_two hpath hpath' halike
      exact ⟨.hasType hpath htag, htail⟩
    | _ => cases hoperator
  | beginsWith hpath start =>
    cases hother with
    | beginsWith hpath' start' =>
      obtain ⟨hpath, hstart, htail⟩ := split_call_two hpath hpath' halike
      exact ⟨.beginsWith hpath hstart, htail⟩
    | _ => cases hoperator
  | contains hpath operand =>
    cases hother with
    | contains hpath' operand' =>
      obtain ⟨hpath, hoperand, htail⟩ := split_call_two hpath hpath' halike
      exact ⟨.contains hpath hoperand, htail⟩
    | _ => cases hoperator
  | compare hpath comparison operand =>
    cases hother with
    | compare hpath' comparison' operand' =>
      obtain rfl := Operator.comparison.inj hoperator
      simp only [written, List.append_assoc] at halike
      obtain ⟨hpath, htail⟩ := split_infix hpath hpath' (head?_comparison comparison) halike
      obtain ⟨hoperand, htail⟩ := split_value htail
      exact ⟨.compare comparison hpath hoperand, htail⟩
    | compareField hpath' comparison' hfield' =>
      obtain rfl := Operator.comparison.inj hoperator
      simp only [written, List.append_assoc] at halike
      obtain ⟨-, htail⟩ := split_infix hpath hpath' (head?_comparison comparison) halike
      exact absurd htail (value_not_alike hfield')
    | _ => cases hoperator
  | compareField hpath comparison hfield =>
    cases hother with
    | compareField hpath' comparison' hfield' =>
      obtain rfl := Operator.comparison.inj hoperator
      simp only [written, List.append_assoc] at halike
      obtain ⟨hpath, htail⟩ := split_infix hpath hpath' (head?_comparison comparison) halike
      obtain ⟨hfield, htail⟩ := split_path hfield hfield' hv.endsPath hw.endsPath htail
      exact ⟨.compareField comparison hpath hfield, htail⟩
    | compare hpath' comparison' operand' =>
      obtain rfl := Operator.comparison.inj hoperator
      simp only [written, List.append_assoc] at halike
      obtain ⟨-, htail⟩ := split_infix hpath hpath' (head?_comparison comparison) halike
      exact absurd htail (path_not_alike hfield)
    | _ => cases hoperator
  | between hpath low high =>
    cases hother with
    | between hpath' low' high' =>
      simp only [written, List.append_assoc] at halike
      obtain ⟨hpath, htail⟩ := split_infix hpath hpath' (by decide) halike
      obtain ⟨hlow, htail⟩ := split_value htail
      obtain ⟨hhigh, htail⟩ := split_value (split_text " and " htail)
      exact ⟨.between hpath hlow hhigh, htail⟩
    | _ => cases hoperator
  | oneOf hpath candidates =>
    cases hother with
    | oneOf hpath' candidates' =>
      simp only [written, List.append_assoc] at halike
      obtain ⟨hpath, htail⟩ := split_infix hpath hpath' (by decide) halike
      obtain ⟨hcandidates, htail⟩ := split_candidates htail
      exact ⟨.oneOf hpath hcandidates, htail⟩
    | _ => cases hoperator
  | group connective hne hproper ih =>
    cases hother with
    | group connective' hne' hproper' =>
      obtain ⟨hconnective, hoperands, htail⟩ := split_operands hne hne'
        (fun operand hoperand other v w hother hv hw h =>
          ih operand hoperand hother hv hw h (operator_eq (hproper operand hoperand) hother h))
        hproper' hv hw halike
      exact ⟨.group hconnective hoperands, htail⟩
    | _ => cases hoperator
  | not hproper ih =>
    cases hother with
    | not hproper' =>
      simp only [written, List.append_assoc] at halike
      have hinside := split_text "NOT (" halike
      have hend : ∀ u, EndsCondition (ofText ")" ++ u) := fun u => .inr (.inl ⟨u, rfl⟩)
      obtain ⟨hoperand, htail⟩ := ih hproper' (hend v) (hend w) hinside
        (operator_eq hproper hproper' hinside)
      exact ⟨.not hoperand, split_text ")" htail⟩
    | _ => cases hoperator

end Conditions

end DocExpr
