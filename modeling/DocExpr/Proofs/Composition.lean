import DocExpr.Proofs.Dict
import DocExpr.Proofs.Written
import Mathlib.Data.List.Forall2

/-!
# Composition of fragments

Every expression is put together from the fragments of its paths and values by a handful of
operations, and all of them are appends of separated texts.  A relation between fragments and pieces
that holds of plain texts and goes through such appends is `Compositional`; it holds of a whole
condition, statement or update once it holds of the leaves.  This is the one induction over
expressions on the side of the text; what the leaves satisfy is a matter of the context in which
they were resolved.

## Main definitions

* `Compositional R`: `R` holds of plain texts and goes through separated appends

## Main results

* `Compositional.join`, `Compositional.enclose`, `Compositional.call`: the operations on fragments
* `Compositional.condition`, `Compositional.statement`, `Compositional.update`: from the leaves to
  the whole
-/

namespace DocExpr

open Piece (ofText)

/-- A relation between fragments and pieces that may be shown leaf by leaf. -/
structure Compositional (R : Fragment → List Piece → Prop) : Prop where
  plain {text : String} : Plain text.toList → R (.ofText text) (ofText text)
  append {a b : Fragment} {v w : List Piece} :
    Separated a.text.toList b.text.toList → R a v → R b w → R (a ++ b) (v ++ w)

/-- Plain text that keeps what is before it apart from what is after it. -/
structure IsSeparator (text : String) : Prop where
  plain : Plain text.toList
  closes : closes text.toList
  opens : opens text.toList
  ne_nil : text.toList ≠ []

instance (text : String) : Decidable (IsSeparator text) :=
  decidable_of_iff (Plain text.toList ∧ closes text.toList ∧ opens text.toList ∧ text.toList ≠ [])
    ⟨fun ⟨h₁, h₂, h₃, h₄⟩ => ⟨h₁, h₂, h₃, h₄⟩, fun ⟨h₁, h₂, h₃, h₄⟩ => ⟨h₁, h₂, h₃, h₄⟩⟩

theorem opens_append {a b : List Char} (hb : opens b) (hne : b ≠ []) : opens (a ++ b) := by
  rwa [opens, List.getLast?_append_of_ne_nil a hne]

@[simp] theorem Fragment.text_append (a b : Fragment) : (a ++ b).text = a.text ++ b.text := rfl

@[simp] theorem Fragment.names_append (a b : Fragment) :
    (a ++ b).names = a.names.merge b.names := rfl

@[simp] theorem Fragment.values_append (a b : Fragment) :
    (a ++ b).values = a.values.merge b.values := rfl

namespace Fragment

/-- One of the two dictionaries of fragments in a row has the keys that it has in each. -/
theorem mem_keys_join {α : Type} {part : Fragment → Dict α}
    (hempty : ∀ text, part (ofText text) = ∅)
    (happend : ∀ a b : Fragment, part (a ++ b) = (part a).merge (part b)) (separator : String)
    (fragments : List Fragment) (placeholder : String) :
    placeholder ∈ (part (join separator fragments)).keys ↔
      ∃ fragment ∈ fragments, placeholder ∈ (part fragment).keys := by
  induction fragments with
  | nil =>
    rw [join, show empty = ofText "" from rfl, hempty]
    simp
  | cons a rest ih =>
    cases rest with
    | nil => simp [join]
    | cons b rest =>
      -- A separator adds no key.
      rw [join, happend, happend, Dict.mem_keys_merge, Dict.mem_keys_merge, ih, hempty]
      simp

theorem mem_names_join (separator : String) (fragments : List Fragment) (placeholder : String) :
    placeholder ∈ (join separator fragments).names.keys ↔
      ∃ fragment ∈ fragments, placeholder ∈ fragment.names.keys :=
  mem_keys_join (fun _ => rfl) names_append separator fragments placeholder

theorem mem_values_join (separator : String) (fragments : List Fragment) (placeholder : String) :
    placeholder ∈ (join separator fragments).values.keys ↔
      ∃ fragment ∈ fragments, placeholder ∈ fragment.values.keys :=
  mem_keys_join (fun _ => rfl) values_append separator fragments placeholder

end Fragment

namespace Compositional

variable {R : Fragment → List Piece → Prop} (hR : Compositional R)

include hR

/-! ## The operations on fragments -/

/-- Two fragments around a separator. -/
theorem around {a b : Fragment} {v w : List Piece} (separator : String)
    (hs : IsSeparator separator) (ha : R a v) (hb : R b w) :
    R (a ++ .ofText separator ++ b) (v ++ ofText separator ++ w) := by
  have hleft : R (a ++ .ofText separator) (v ++ ofText separator) :=
    hR.append (.inl hs.closes) ha (hR.plain hs.plain)
  refine hR.append (.inr ?_) hleft hb
  rw [Fragment.text_append, String.toList_append]
  exact opens_append hs.opens hs.ne_nil

theorem join (separator : String) (hs : IsSeparator separator) {fragments : List Fragment}
    {written : List (List Piece)} (h : List.Forall₂ R fragments written) :
    R (.join separator fragments) ((ofText separator).intercalate written) := by
  induction h with
  | nil => exact hR.plain (show Plain "".toList by simp [Plain])
  | cons ha hrest ih =>
    cases hrest with
    | nil => simpa [Fragment.join] using ha
    | cons hb hrest =>
      rw [Fragment.join, List.intercalate_cons_cons]
      exact hR.around separator hs ha ih

theorem enclose {a : Fragment} {v : List Piece} {before after : String}
    (hbefore : Plain before.toList ∧ opens before.toList)
    (hafter : Plain after.toList ∧ closes after.toList) (ha : R a v) :
    R (.enclose before a after) (ofText before ++ v ++ ofText after) :=
  hR.append (.inl hafter.2) (hR.append (.inr hbefore.2) (hR.plain hbefore.1) ha)
    (hR.plain hafter.1)

theorem call (function opening : String) (hopening : function ++ "(" = opening)
    (hplain : Plain opening.toList ∧ opens opening.toList)
    {arguments : List Fragment} {written : List (List Piece)}
    (h : List.Forall₂ R arguments written) :
    R (.call function arguments)
      (ofText opening ++ (ofText ", ").intercalate written ++ ofText ")") := by
  subst hopening
  exact hR.enclose hplain (by decide) (hR.join ", " (by decide) h)

theorem call_one (function opening : String) (hopening : function ++ "(" = opening)
    (hplain : Plain opening.toList ∧ opens opening.toList) {a : Fragment} {v : List Piece}
    (ha : R a v) : R (.call function [a]) (ofText opening ++ v ++ ofText ")") := by
  have h := hR.call function opening hopening hplain (.cons ha .nil)
  rwa [List.intercalate_singleton] at h

theorem call_two (function opening : String) (hopening : function ++ "(" = opening)
    (hplain : Plain opening.toList ∧ opens opening.toList) {a b : Fragment} {v w : List Piece}
    (ha : R a v) (hb : R b w) :
    R (.call function [a, b]) (ofText opening ++ v ++ ofText ", " ++ w ++ ofText ")") := by
  have h := hR.call function opening hopening hplain (.cons ha (.cons hb .nil))
  rw [List.intercalate_cons_cons, List.intercalate_singleton] at h
  simpa only [List.append_assoc] using h

end Compositional

theorem isSeparator_comparison (comparison : Comparison) :
    IsSeparator (" " ++ comparison.sign ++ " ") := by
  cases comparison <;> decide

theorem isSeparator_connective (connective : Connective) :
    IsSeparator (" " ++ connective.word ++ " ") := by
  cases connective <;> decide

theorem isSeparator_arithmetic (op : ArithmeticOp) : IsSeparator (" " ++ op.sign ++ " ") := by
  cases op <;> decide

section Rel

variable {α β : Type} {R S : α → β → Prop} {a? : Option α} {b? : Option β}

theorem exists_of_rel (h : Option.Rel R a? b?) {a : α} (ha : a ∈ a?) : ∃ b, R a b := by
  cases h with
  | none => cases ha
  | some hab =>
    cases ha
    exact ⟨_, hab⟩

theorem rel_of_rel (h : Option.Rel R a? b?) (himp : ∀ a ∈ a?, ∀ b, R a b → S a b) :
    Option.Rel S a? b? := by
  cases h with
  | none => exact .none
  | some hab => exact .some (himp _ rfl _ hab)

end Rel

/-! ## From the leaves to the whole -/

/-- The relation holds of some paths, values and texts of the caller. -/
structure OnLeaves (R : Fragment → List Piece → Prop) (paths : List ResolvedPath)
    (literals : List BoundValue) (fixedTexts : List Fragment) : Prop where
  path : ∀ path ∈ paths, R path.fragment path.path.written
  literal : ∀ value ∈ literals, R value.fragment [.value value.value]
  fixed : ∀ text ∈ fixedTexts, R text (ofText text.text)

namespace OnLeaves

variable {R : Fragment → List Piece → Prop} {paths paths' : List ResolvedPath}
  {literals literals' : List BoundValue} {texts texts' : List Fragment}

theorem left (h : OnLeaves R (paths ++ paths') (literals ++ literals') (texts ++ texts')) :
    OnLeaves R paths literals texts :=
  ⟨fun p hp => h.path p (List.mem_append_left _ hp),
    fun v hv => h.literal v (List.mem_append_left _ hv),
    fun f hf => h.fixed f (List.mem_append_left _ hf)⟩

theorem right (h : OnLeaves R (paths ++ paths') (literals ++ literals') (texts ++ texts')) :
    OnLeaves R paths' literals' texts' :=
  ⟨fun p hp => h.path p (List.mem_append_right _ hp),
    fun v hv => h.literal v (List.mem_append_right _ hv),
    fun f hf => h.fixed f (List.mem_append_right _ hf)⟩

/-- The values of a list, one by one. -/
theorem forall₂_literals (h : OnLeaves R paths literals texts) :
    List.Forall₂ R (literals.map BoundValue.fragment)
      ((literals.map BoundValue.value).map fun value => [.value value]) := by
  rw [List.map_map, List.forall₂_map_left_iff, List.forall₂_map_right_iff, List.forall₂_same]
  exact h.literal

/-- The leaves of a list of statements are those of each. -/
theorem ofStatement {statements : List ResolvedStatement}
    (h : OnLeaves R (statements.flatMap StatementOn.paths)
      (statements.flatMap StatementOn.literals) [])
    {statement : ResolvedStatement} (hmem : statement ∈ statements) :
    OnLeaves R statement.paths statement.literals [] :=
  ⟨fun path hp => h.path path (List.mem_flatMap.mpr ⟨statement, hmem, hp⟩),
    fun value hv => h.literal value (List.mem_flatMap.mpr ⟨statement, hmem, hv⟩), by simp⟩

end OnLeaves

namespace Compositional

variable {R : Fragment → List Piece → Prop} (hR : Compositional R)

open ConditionTree

include hR

mutual

/-- A condition, one constructor after the other: its fragment and its pieces are put together by
the same operation on the same leaves. -/
theorem condition : ∀ condition : ResolvedCondition,
    OnLeaves R condition.paths condition.literals condition.fixedTexts →
      R condition.fragment condition.source.written
  | .fixed text names values, h => by
    rw [ResolvedCondition.fragment, ResolvedCondition.source, map, Condition.written]
    exact h.fixed ⟨text, names, values⟩ (by simp [fixedTexts])
  | .existence path true, h => by
    rw [ResolvedCondition.fragment, ResolvedCondition.source, map, Condition.written]
    exact hR.call_one "attribute_exists" "attribute_exists(" rfl (by decide)
      (h.path path (by simp [paths]))
  | .existence path false, h => by
    rw [ResolvedCondition.fragment, ResolvedCondition.source, map, Condition.written]
    exact hR.call_one "attribute_not_exists" "attribute_not_exists(" rfl (by decide)
      (h.path path (by simp [paths]))
  | .hasType path tag, h => by
    rw [ResolvedCondition.fragment, ResolvedCondition.source, map, Condition.written]
    exact hR.call_two "attribute_type" "attribute_type(" rfl (by decide)
      (h.path path (by simp [paths])) (h.literal tag (by simp [literals]))
  | .compare path comparison operand, h => by
    rw [ResolvedCondition.fragment, ResolvedCondition.source, map, Condition.written]
    exact hR.around _ (isSeparator_comparison comparison) (h.path path (by simp [paths]))
      (h.literal operand (by simp [literals]))
  | .compareField path comparison other, h => by
    rw [ResolvedCondition.fragment, ResolvedCondition.source, map, Condition.written]
    exact hR.around _ (isSeparator_comparison comparison) (h.path path (by simp [paths]))
      (h.path other (by simp [paths]))
  | .between path low high, h => by
    have hbounds := hR.around " and " (by decide)
      (h.literal low (by simp [literals])) (h.literal high (by simp [literals]))
    have hwhole := hR.around " between " (by decide)
      (h.path path (by simp [paths])) hbounds
    rw [ResolvedCondition.fragment, ResolvedCondition.source, map, Condition.written]
    simpa only [Fragment.join, List.append_assoc] using hwhole
  | .beginsWith path start, h => by
    rw [ResolvedCondition.fragment, ResolvedCondition.source, map, Condition.written]
    exact hR.call_two "begins_with" "begins_with(" rfl (by decide) (h.path path (by simp [paths]))
      (h.literal start (by simp [literals]))
  | .contains path operand, h => by
    rw [ResolvedCondition.fragment, ResolvedCondition.source, map, Condition.written]
    exact hR.call_two "contains" "contains(" rfl (by decide) (h.path path (by simp [paths]))
      (h.literal operand (by simp [literals]))
  | .oneOf path candidates, h => by
    have hlist := hR.call " in " " in (" rfl (by decide) h.forall₂_literals
    -- The list starts with a space, so it may stand behind any path.
    have hsep : Separated path.fragment.text.toList
        (Fragment.call " in " (candidates.map BoundValue.fragment)).text.toList := by
      refine .inl ?_
      simp [Fragment.call, Fragment.enclose, Fragment.ofText, closes, isTokenChar]
    rw [ResolvedCondition.fragment, ResolvedCondition.source, map, Condition.written]
    simpa only [literals, List.append_assoc] using
      hR.append hsep (h.path path (by simp [paths])) hlist
  | .group connective operands, h => by
    rw [ResolvedCondition.fragment, ResolvedCondition.source, map, Condition.written]
    exact hR.join _ (isSeparator_connective connective) (operands_enclosed operands h)
  | .not operand, h => by
    rw [ResolvedCondition.fragment, ResolvedCondition.source, map, Condition.written]
    exact hR.enclose (by decide) (by decide) (condition operand h)

theorem operands_enclosed : ∀ operands : List ResolvedCondition,
    OnLeaves R (pathsOfAll operands) (literalsOfAll operands) (fixedTextsOfAll operands) →
      List.Forall₂ R (ResolvedCondition.enclosed operands)
        (Condition.writtenOperands (mapAll ResolvedPath.path BoundValue.value operands))
  | [], _ => .nil
  | operand :: rest, h => by
    rw [ResolvedCondition.enclosed, mapAll, Condition.writtenOperands]
    exact .cons (hR.enclose (by decide) (by decide) (condition operand h.left))
      (operands_enclosed rest h.right)

end

theorem expr : ∀ expr : ResolvedExpr, OnLeaves R expr.paths expr.literals [] →
    R expr.fragment expr.source.written
  | .constant value, h => h.literal value (by simp [ValueExpr.literals])
  | .path path, h => h.path path (by simp [ValueExpr.paths])
  | .arithmetic left op right, h => by
    have h : OnLeaves R (left.paths ++ right.paths) (left.literals ++ right.literals)
      ([] ++ []) := h
    rw [ResolvedExpr.fragment, ResolvedExpr.source, ValueExpr.map, ValueExpr.written]
    exact hR.around _ (isSeparator_arithmetic op) (expr left h.left) (expr right h.right)
  | .listAppend head tail, h => by
    have h : OnLeaves R (head.paths ++ tail.paths) (head.literals ++ tail.literals) ([] ++ []) := h
    rw [ResolvedExpr.fragment, ResolvedExpr.source, ValueExpr.map, ValueExpr.written]
    exact hR.call_two "list_append" "list_append(" rfl (by decide) (expr head h.left)
      (expr tail h.right)

theorem statement (statement : ResolvedStatement)
    (h : OnLeaves R statement.paths statement.literals []) :
    R statement.fragment statement.source.written := by
  obtain ⟨target, action⟩ := statement
  have htarget : R target.fragment target.path.written :=
    h.path target (by simp [StatementOn.paths])
  have hvalue : ∀ value, action.expr? = some value →
      R (ResolvedExpr.fragment value) (ResolvedExpr.source value).written := by
    intro value hv
    refine hR.expr value ⟨fun p hp => h.path p ?_, fun v hv' => h.literal v ?_, by simp⟩
    · simp [StatementOn.paths, hv, hp]
    · simp [StatementOn.literals, hv, hv']
  cases action with
  | set value overwrite =>
    have hv := hvalue value rfl
    cases overwrite with
    | true => exact hR.around " = " (by decide) htarget hv
    | false =>
      have hcall := hR.call_two "if_not_exists" "if_not_exists(" rfl (by decide) htarget hv
      exact hR.around " = " (by decide) htarget hcall
  | add value => exact hR.around " " (by decide) htarget (hvalue value rfl)
  | remove => exact htarget
  | delete value => exact hR.around " " (by decide) htarget (hvalue value rfl)

theorem clause {statements : List ResolvedStatement}
    (h : ∀ statement ∈ statements, OnLeaves R statement.paths statement.literals [])
    (clause : Clause) :
    Option.Rel R (clauseFragment? statements clause)
      (writtenClause? (statements.map ResolvedStatement.source) clause) := by
  -- Resolving a statement does not change its clause.
  have hown : (statements.map ResolvedStatement.source).filter
      (fun statement => statement.action.clause = clause) =
      (statements.filter fun statement => statement.action.clause = clause).map
        ResolvedStatement.source := by
    rw [List.filter_map]
    congr 2
    funext statement
    simp [ResolvedStatement.source]
  have hword : Plain (clause.keyword ++ " ").toList ∧ opens (clause.keyword ++ " ").toList := by
    cases clause <;> decide
  rw [clauseFragment?, writtenClause?, hown]
  cases hfilter : statements.filter fun statement => statement.action.clause = clause with
  | nil => exact .none
  | cons first rest =>
    have hmem : ∀ statement ∈ first :: rest, statement ∈ statements := fun statement hm =>
      List.mem_of_mem_filter (hfilter ▸ hm)
    have hparts : List.Forall₂ R ((first :: rest).map ResolvedStatement.fragment)
        (((first :: rest).map ResolvedStatement.source).map Statement.written) := by
      rw [List.map_map, List.forall₂_map_left_iff, List.forall₂_map_right_iff, List.forall₂_same]
      exact fun statement hm => hR.statement statement (h statement (hmem statement hm))
    exact .some (hR.append (.inr hword.2) (hR.plain hword.1) (hR.join ", " (by decide) hparts))

/-- The update expression of some statements. -/
theorem update {statements : List ResolvedStatement}
    (h : ∀ statement ∈ statements, OnLeaves R statement.paths statement.literals []) :
    Option.Rel R (updateFragment? statements)
      (writtenUpdate? (statements.map ResolvedStatement.source)) := by
  have hclauses : List.Forall₂ R (Clause.all.filterMap (clauseFragment? statements))
      (writtenClauses (statements.map ResolvedStatement.source)) :=
    List.rel_filterMap (fun clause _ hclause => hclause ▸ hR.clause h clause)
      (List.forall₂_same.mpr fun _ _ => rfl)
  rw [updateFragment?, writtenUpdate?]
  generalize Clause.all.filterMap (clauseFragment? statements) = fragments at hclauses
  generalize writtenClauses (statements.map ResolvedStatement.source) = clauses at hclauses
  cases hclauses with
  | nil => exact .none
  | cons hfirst hrest => exact .some (hR.join " " (by decide) (.cons hfirst hrest))

end Compositional

/-! ## Clauses -/

theorem Clause.mem_all (clause : Clause) : clause ∈ Clause.all := by
  cases clause <;> decide

/-- The clause of a statement is there. -/
theorem exists_clauseFragment? {statements : List ResolvedStatement}
    {statement : ResolvedStatement} (h : statement ∈ statements) :
    ∃ fragment, clauseFragment? statements statement.action.clause = some fragment := by
  refine Option.isSome_iff_exists.mp ?_
  have hempty : (statements.filter fun other =>
      other.action.clause = statement.action.clause).isEmpty = false := by
    rw [← Bool.not_eq_true, List.isEmpty_iff, List.filter_eq_nil_iff]
    simpa using ⟨statement, h, rfl⟩
  rw [clauseFragment?]
  simp [hempty]

end DocExpr
