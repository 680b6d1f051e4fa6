import DocExpr.Proofs.Resolution

/-!
# Which errors a computation raises

A computation that fails gives the error of the first step that does.  So what can go wrong with a
whole is what can go wrong with its parts: if all of these fail only for some reasons, it fails only
for these reasons as well.

One reason stands apart.  All errors tell what is wrong with an expression, but one: that an update
would change the key of an item.  Neither a path nor a condition nor a value is ever refused for it.

## Main definitions

* `Compile.Raises`: all errors of a computation have a property
* `ExpressionError.Keyless`: an error that is not about the key

## Main results

* `Compile.runOn_mapM_eq_error_iff`: the error of a list is that of its first member that fails
* `Path.resolve_raises`, `Condition.resolve_raises`, `resolveExpr_raises`: what does not fail for
  the sake of the key
-/

namespace DocExpr

variable {n : Nat} {family : Family n} {of : Fin n}

/-! ## The errors of a computation -/

namespace Compile

variable {α β : Type} {ctx ctx' : Context} {e : ExpressionError} {P : ExpressionError → Prop}

/-- An error of two computations in a row is one of the first, or one of the second. -/
theorem runOn_bind_eq_error_iff {first : Compile α} {next : α → Compile β} :
    (first >>= next).runOn ctx = (.error e, ctx') ↔ first.runOn ctx = (.error e, ctx') ∨
      ∃ a mid, first.runOn ctx = (.ok a, mid) ∧ (next a).runOn mid = (.error e, ctx') := by
  rw [runOn_bind]
  rcases first.runOn ctx with ⟨_ | a, mid⟩ <;> simp

/-- The error of a list is that of its first member that fails. -/
theorem runOn_mapM_eq_error_iff {f : α → Compile β} {l : List α} :
    (l.mapM f).runOn ctx = (.error e, ctx') ↔ ∃ before a after bs mid, l = before ++ a :: after ∧
      (before.mapM f).runOn ctx = (.ok bs, mid) ∧ (f a).runOn mid = (.error e, ctx') := by
  induction l generalizing ctx with
  | nil => simp [List.mapM_nil]
  | cons first rest ih =>
    rw [List.mapM_cons, runOn_bind_eq_error_iff]
    constructor
    · rintro (hfirst | ⟨b, mid, hb, hrest⟩)
      · exact ⟨[], first, rest, [], ctx, rfl, by rw [List.mapM_nil, runOn_pure], hfirst⟩
      · rcases runOn_bind_eq_error_iff.mp hrest with hrest | ⟨_, _, -, hpure⟩
        · obtain ⟨before, a, after, bs, last, rfl, hbefore, ha⟩ := ih.mp hrest
          refine ⟨first :: before, a, after, b :: bs, last, rfl, ?_, ha⟩
          rw [List.mapM_cons]
          exact runOn_bind_eq_ok_iff.mpr ⟨b, mid, hb,
            runOn_bind_eq_ok_iff.mpr ⟨bs, last, hbefore, rfl⟩⟩
        · cases hpure
    · -- The member that fails is the first one, or it comes later.
      rintro ⟨_ | ⟨head, before⟩, a, after, bs, mid, hl, hbefore, ha⟩
      · rw [List.mapM_nil] at hbefore
        cases hl
        cases hbefore
        exact .inl ha
      · cases hl
        rw [List.mapM_cons] at hbefore
        obtain ⟨b, next, hb, hbefore⟩ := runOn_bind_eq_ok_iff.mp hbefore
        obtain ⟨others, _, hothers, hpure⟩ := runOn_bind_eq_ok_iff.mp hbefore
        cases hpure
        have hrest := ih.mpr ⟨before, a, after, others, mid, rfl, hothers, ha⟩
        exact .inr ⟨b, next, hb, runOn_bind_eq_error_iff.mpr (.inl hrest)⟩

/-- Each member of a list that has results was run. -/
theorem exists_run_of_mapM {f : α → Compile β} {l : List α} {bs : List β}
    (h : (l.mapM f).runOn ctx = (.ok bs, ctx')) :
    ∀ a ∈ l, ∃ before b after, (f a).runOn before = (.ok b, after) := by
  induction l generalizing ctx bs with
  | nil => exact List.forall_mem_nil _
  | cons first rest ih =>
    rw [List.mapM_cons] at h
    obtain ⟨b, mid, hb, h⟩ := runOn_bind_eq_ok_iff.mp h
    obtain ⟨others, _, hothers, hpure⟩ := runOn_bind_eq_ok_iff.mp h
    cases hpure
    exact List.forall_mem_cons.mpr ⟨⟨ctx, b, mid, hb⟩, ih hothers⟩

/-- Whatever context it starts in, a computation fails only with errors that have a property. -/
def Raises (P : ExpressionError → Prop) (computation : Compile α) : Prop :=
  ∀ ⦃ctx ctx' : Context⦄ ⦃e : ExpressionError⦄, computation.runOn ctx = (.error e, ctx') → P e

namespace Raises

theorem pure (a : α) : Raises P (Pure.pure a) := fun _ _ _ h => by cases h

theorem ofExcept {result : Except ExpressionError α} (h : ∀ e, result = .error e → P e) :
    Raises P (Compile.ofExcept result) := fun _ _ e hrun => h e (congrArg Prod.fst hrun)

theorem throw (h : P e) : Raises P (MonadExcept.throw e : Compile α) := fun _ _ _ hrun => by
  cases hrun
  exact h

theorem get : Raises P (MonadState.get : Compile Context) := fun _ _ _ h => by cases h

theorem bind {first : Compile α} {next : α → Compile β} (hfirst : Raises P first)
    (hnext : ∀ a, Raises P (next a)) : Raises P (first >>= next) := by
  intro ctx ctx' e h
  rcases runOn_bind_eq_error_iff.mp h with h | ⟨a, mid, -, h⟩
  · exact hfirst h
  · exact hnext a h

theorem ite {c : Prop} [Decidable c] {yes no : Compile α} (hyes : Raises P yes)
    (hno : Raises P no) : Raises P (if c then yes else no) := by
  split
  · exact hyes
  · exact hno

theorem mapM {f : α → Compile β} (l : List α) (hf : ∀ a, Raises P (f a)) :
    Raises P (l.mapM f) := by
  intro ctx ctx' e h
  obtain ⟨before, a, after, bs, mid, -, -, h⟩ := runOn_mapM_eq_error_iff.mp h
  exact hf a h

theorem forM {f : α → Compile Unit} (l : List α) (hf : ∀ a, Raises P (f a)) :
    Raises P (l.forM f) := by
  induction l with
  | nil => exact pure ()
  | cons a l ih => exact (hf a).bind fun _ => ih

theorem step {f : Context → Except ExpressionError (α × Context)}
    (h : ∀ ctx e, f ctx = .error e → P e) : Raises P (Compile.step f) := by
  intro ctx ctx' e hrun
  rw [runOn_step] at hrun
  cases hf : f ctx with
  | ok pair =>
    rw [hf] at hrun
    cases hrun
  | error e' =>
    rw [hf] at hrun
    cases hrun
    exact h ctx e hf

end Raises

end Compile

/-! ## Errors that are not about the key -/

/-- Whether an error is not about the key. -/
def ExpressionError.Keyless : ExpressionError → Prop
  | keyUpdate _ => False
  | _ => True

open Compile (Raises)
open ExpressionError (Keyless)

namespace Context

variable {ctx : Context} {e : ExpressionError}

theorem keyless_of_mint {α : Type} {placeholder : String → String} {taken : Dict α}
    (h : ctx.mint placeholder taken = .error e) : e.Keyless := by
  rw [mint] at h
  split at h <;> cases h
  trivial

theorem bindName_raises (field : String) (code : Option String) :
    Raises Keyless (Compile.bindName field code) := by
  refine .step fun ctx e h => ?_
  rw [bindName] at h
  split at h
  · cases h
  · split at h
    · cases h
    · split at h
      · next hmint =>
        cases h
        exact keyless_of_mint hmint
      · cases h

theorem bindValue_raises (value : AttributeValue) :
    Raises Keyless (Compile.bindValue value) := by
  refine .step fun ctx e h => ?_
  rw [bindValue] at h
  split at h
  · cases h
    trivial
  · split at h
    · next hmint =>
      cases h
      exact keyless_of_mint hmint
    · cases h

theorem reserveName_raises (placeholder field : String) :
    Raises Keyless (Compile.reserveName placeholder field) := by
  refine .step fun ctx e h => ?_
  rw [reserveName] at h
  split at h
  · split at h <;> cases h
    trivial
  · cases h

theorem reserveValue_raises (placeholder : String) (value : AttributeValue) :
    Raises Keyless (Compile.reserveValue placeholder value) := by
  refine .step fun ctx e h => ?_
  rw [reserveValue] at h
  split at h
  · cases h
    trivial
  · split at h
    · split at h <;> cases h
      trivial
    · cases h

end Context

open Context (bindName_raises bindValue_raises reserveName_raises reserveValue_raises)

namespace Path

variable {nameOf : String → Except ExpressionError String} {e : ExpressionError}

theorem keyless_of_renderSegments (hname : ∀ name e, nameOf name = .error e → e.Keyless)
    {written : String} {segments : List Segment}
    (h : renderSegments nameOf written segments = .error e) : e.Keyless := by
  induction segments generalizing written with
  | nil => cases h
  | cons segment rest ih =>
    cases segment with
    | field name =>
      cases hrender : nameOf name with
      | error e' =>
        rw [renderSegments, hrender] at h
        cases h
        exact hname name e hrender
      | ok text =>
        rw [renderSegments_field hrender] at h
        exact ih h
    | index ordinal =>
      rw [renderSegments] at h
      split at h
      · cases h
        trivial
      · exact ih h

theorem keyless_of_render (hname : ∀ name e, nameOf name = .error e → e.Keyless) {path : Path}
    (h : path.render nameOf = .error e) : e.Keyless := by
  rw [render] at h
  split at h
  · cases h
    trivial
  · exact keyless_of_renderSegments hname h

theorem keyless_of_withNames {names : Dict String} {path : Path}
    (h : path.withNames names = .error e) : e.Keyless := by
  refine keyless_of_render (fun name e hname => ?_) h
  split at hname <;> cases hname
  trivial

end Path

theorem Family.keyless_of_walk {literal : String} {place : Place n} {segments : List Segment}
    {e : ExpressionError} (h : family.walk literal place segments = .error e) : e.Keyless := by
  induction segments generalizing place with
  | nil => cases h
  | cons segment rest ih =>
    cases segment with
    | field name =>
      rw [walk] at h
      split at h
      · cases h
        trivial
      · next field _ =>
        cases hrest : family.walk literal (.ofField field) rest with
        | error e' =>
          rw [hrest] at h
          cases h
          exact ih hrest
        | ok pair =>
          rw [hrest] at h
          cases h
    | index ordinal =>
      rw [walk] at h
      split at h
      · cases h
        trivial
      · exact ih h

theorem bindFields_raises (fields : List (Field n)) (names : Dict String) :
    Raises Keyless (bindFields fields names) := by
  induction fields generalizing names with
  | nil => exact .pure names
  | cons field rest ih => exact (bindName_raises field.name field.code).bind fun _ => ih _

theorem Path.resolve_raises (path : Path) : Raises Keyless (path.resolve family of) :=
  (Raises.ofExcept fun _ => keyless_of_render (fun _ _ hname => by cases hname)).bind fun _ =>
    (Raises.ofExcept fun _ => Family.keyless_of_walk).bind fun _ =>
      (bindFields_raises _ _).bind fun _ => Raises.get.bind fun _ =>
        (Raises.ofExcept fun _ => keyless_of_withNames).bind fun _ => .pure _

theorem ResolvedPath.bindOperand_raises (path : ResolvedPath) (value : AttributeValue) :
    Raises Keyless (path.bindOperand value) := by
  unfold ResolvedPath.bindOperand
  split
  · exact bindValue_raises value
  · exact .ite (bindValue_raises value) (.throw trivial)

namespace Condition

mutual

/-- **A condition does not fail for the sake of the key**, whatever it is about. -/
theorem resolve_raises : ∀ condition : Condition, Raises Keyless (condition.resolve family of)
  | .fixed text names values => by
    rw [resolve]
    exact (Raises.forM _ fun _ => reserveName_raises _ _).bind fun _ =>
      (Raises.forM _ fun _ => reserveValue_raises _ _).bind fun _ => .pure _
  | .existence path expected => by
    rw [resolve]
    exact path.resolve_raises.bind fun _ => .pure _
  | .hasType path operand | .contains path operand => by
    rw [resolve]
    exact path.resolve_raises.bind fun _ => (bindValue_raises operand).bind fun _ => .pure _
  | .compare path _ operand | .beginsWith path operand => by
    rw [resolve]
    exact path.resolve_raises.bind fun path =>
      (path.bindOperand_raises operand).bind fun _ => .pure _
  | .compareField path comparison other => by
    rw [resolve]
    exact path.resolve_raises.bind fun _ => other.resolve_raises.bind fun _ => .pure _
  | .between path low high => by
    rw [resolve]
    exact path.resolve_raises.bind fun path => (path.bindOperand_raises low).bind fun _ =>
      (path.bindOperand_raises high).bind fun _ => .pure _
  | .oneOf path candidates => by
    rw [resolve]
    -- What follows an error is not run, but it stands behind it all the same.
    refine .ite ((Raises.throw trivial).bind fun _ => ?_) ?_
    all_goals
      exact path.resolve_raises.bind fun path =>
        (Raises.mapM candidates path.bindOperand_raises).bind fun _ => .pure _
  | .group connective operands => by
    rw [resolve]
    refine .ite ((Raises.throw trivial).bind fun _ => ?_) ?_
    all_goals exact (resolveAll_raises operands).bind fun _ => .pure _
  | .not operand => by
    rw [resolve]
    exact (resolve_raises operand).bind fun _ => .pure _

theorem resolveAll_raises : ∀ conditions : List Condition,
    Raises Keyless (resolveAll family of conditions)
  | [] => by
    rw [resolveAll]
    exact .pure []
  | condition :: rest => by
    rw [resolveAll]
    exact (resolve_raises condition).bind fun _ => (resolveAll_raises rest).bind fun _ => .pure _

end

end Condition

theorem compileCondition?_raises (condition? : Option Condition) :
    Raises Keyless (compileCondition? family of condition?) := by
  cases condition? with
  | none => exact .pure none
  | some condition => exact (condition.resolve_raises.bind fun _ => .pure _).bind fun _ => .pure _

/-- A value may be read from anywhere, also from the key. -/
theorem resolveExpr_raises {bind : AttributeValue → Compile BoundValue}
    (hbind : ∀ value, Raises Keyless (bind value)) (expr : ValueExpr Path AttributeValue) :
    Raises Keyless (resolveExpr family of bind expr) := by
  induction expr generalizing bind with
  | constant value => exact (hbind value).bind fun _ => .pure _
  | path path => exact path.resolve_raises.bind fun _ => .pure _
  | arithmetic left _ right ihl ihr | listAppend left right ihl ihr =>
    exact (ihl bindValue_raises).bind fun _ => (ihr bindValue_raises).bind fun _ => .pure _

end DocExpr
