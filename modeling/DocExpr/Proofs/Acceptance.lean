import DocExpr.Proofs.FiniteNumbers
import DocExpr.Proofs.SchemaPaths

/-!
# Acceptance depends on the schema alone

Resolving an expression makes checks on the way, between the steps that bind names and values.  The
checks look at the schema and at the expression only; they can be listed in the order in which they
are made, without a context.  An expression is accepted if all of them hold, and otherwise the first
that fails gives the error, whatever was bound before and whatever the alphabet is.

`Compile.Judged` says this of a computation and a list of checks.  Its rules follow the way
computations are put together, so that the checks of an expression are gathered along its tree.

## Main definitions

* `Check`, `Check.Holds`, `Check.Fails`: the checks, and the error of each
* `Condition.checks`, `Statement.checks`, `Update.checks`: the checks of an expression, in order
* `FirstFault`: the error of the first check that fails
* `Compile.Judged`: the outcome of a computation is that of its checks

## Main results

* `Compile.Judged.bind`: computations one after the other
* `Path.resolve_judged`, `Condition.resolve_judged`, `Statement.resolve_judged`: resolving
* `accepted_by_schema`: conditions and updates, in every context of a program
-/

namespace DocExpr

variable {n : Nat} {family : Family n} {of : Fin n}

/-! ## Checks -/

/-- A check that is made of an expression. -/
inductive Check where
  /-- The schema declares the path. -/
  | declared (path : Path)
  /-- The target of a statement does not start at the key. -/
  | updatable (target : Path)
  /-- A value beside a path has its type. -/
  | fits (path : Path) (value : AttributeValue)
  /-- The numbers in a value are finite. -/
  | finite (value : AttributeValue)
  /-- A condition has parts, of which there are `count`. -/
  | nonempty (count : Nat) (fault : ConditionFault)

namespace Check

def Holds (family : Family n) (of : Fin n) : Check → Prop
  | declared path => path.IsDeclared family of
  | updatable target => ¬family.StartsAtKey of target.segments
  | fits path value => ∀ declared, family.Declares of path.segments declared →
    ∀ type, declared.type? = some type → value.isNull = true ∨ value.type = type
  | finite value => ∀ numeral ∈ value.numerals, isFiniteNumeral numeral = true
  | nonempty count _ => count ≠ 0

/-- The error of a check that does not hold. -/
inductive Fails (family : Family n) (of : Fin n) : Check → ExpressionError → Prop
  | declared {path : Path} {e : ExpressionError} : path.Refused family of e →
    Fails family of (.declared path) e
  | updatable {target : Path} : family.StartsAtKey of target.segments →
    Fails family of (.updatable target) (.keyUpdate target.display)
  | fits {path : Path} {value : AttributeValue} {declared : Declared n} {type : AttributeType} :
    family.Declares of path.segments declared → declared.type? = some type →
      value.isNull = false → value.type ≠ type →
      Fails family of (.fits path value) (.typeMismatch path.display type value.type)
  | finite {value : AttributeValue} {numeral : String} :
    value.numerals.find? (fun numeral => !isFiniteNumeral numeral) = some numeral →
    Fails family of (.finite value) (.invalidNumber numeral)
  | nonempty {fault : ConditionFault} :
    Fails family of (.nonempty 0 fault) (.invalidCondition fault)

/-- The checks of a value beside a path. -/
def operand (path : Path) (value : AttributeValue) : List Check := [.fits path value, .finite value]

/-- The type of a path is that of any declaration of it. -/
theorem fits_of_declares {path : Path} {value : AttributeValue} {declared : Declared n}
    (h : family.Declares of path.segments declared)
    (hvalue : ∀ type, declared.type? = some type → value.isNull = true ∨ value.type = type) :
    (fits path value).Holds family of := by
  intro other hother type htype
  exact hvalue type (h.type?_eq hother ▸ htype)

/-- A check holds or fails. -/
theorem holds_or_fails (family : Family n) (of : Fin n) (check : Check) :
    check.Holds family of ∨ ∃ e, check.Fails family of e := by
  cases check with
  | declared path =>
    exact (path.isDeclared_or_refused family of).imp_right fun ⟨e, h⟩ => ⟨e, .declared h⟩
  | updatable target =>
    by_cases h : family.StartsAtKey of target.segments
    · exact .inr ⟨_, .updatable h⟩
    · exact .inl h
  | fits path value =>
    rw [or_iff_not_imp_left]
    intro h
    simp only [Holds, not_forall, not_or] at h
    obtain ⟨declared, hdeclared, type, htype, hnull, hvalue⟩ := h
    exact ⟨_, .fits hdeclared htype (Bool.eq_false_iff.mpr hnull) hvalue⟩
  | finite value =>
    cases hfind : value.numerals.find? (fun numeral => !isFiniteNumeral numeral) with
    | some numeral => exact .inr ⟨_, .finite hfind⟩
    | none => exact .inl fun numeral hmem => by simpa using List.find?_eq_none.mp hfind numeral hmem
  | nonempty count fault =>
    cases count with
    | zero => exact .inr ⟨_, .nonempty⟩
    | succ count => exact .inl (Nat.succ_ne_zero count)

end Check

/-- The error of the first check that does not hold. -/
inductive FirstFault (family : Family n) (of : Fin n) : List Check → ExpressionError → Prop
  | here {check : Check} {e : ExpressionError} (rest : List Check) : check.Fails family of e →
    FirstFault family of (check :: rest) e
  | later {check : Check} {rest : List Check} {e : ExpressionError} : check.Holds family of →
    FirstFault family of rest e → FirstFault family of (check :: rest) e

namespace FirstFault

/-- The first fault is among the first checks, or else these hold. -/
theorem of_append {first second : List Check} {e : ExpressionError}
    (h : FirstFault family of (first ++ second) e) :
    FirstFault family of first e ∨
      (∀ check ∈ first, check.Holds family of) ∧ FirstFault family of second e := by
  induction first with
  | nil => exact .inr ⟨by simp, h⟩
  | cons check rest ih =>
    cases h with
    | here _ hfails => exact .inl (.here rest hfails)
    | later hholds hrest =>
      obtain hfault | ⟨hall, hfault⟩ := ih hrest
      · exact .inl (.later hholds hfault)
      · exact .inr ⟨List.forall_mem_cons.mpr ⟨hholds, hall⟩, hfault⟩

/-- All checks hold or there is a first that fails. -/
theorem all_hold_or_exists (family : Family n) (of : Fin n) (checks : List Check) :
    (∀ check ∈ checks, check.Holds family of) ∨ ∃ e, FirstFault family of checks e := by
  induction checks with
  | nil => exact .inl (by simp)
  | cons check rest ih =>
    obtain hholds | ⟨e, hfails⟩ := check.holds_or_fails family of
    · exact ih.imp (fun hall => List.forall_mem_cons.mpr ⟨hholds, hall⟩)
        fun ⟨e, hfault⟩ => ⟨e, .later hholds hfault⟩
    · exact .inr ⟨e, .here rest hfails⟩

end FirstFault

/-! ## The checks of an expression -/

namespace Condition

mutual

/-- The checks of a condition, in the order in which they are made.  What a collection may contain
is not known from its type, so the operand of `contains` need not fit. -/
def checks : Condition → List Check
  | .fixed .. => []
  | .existence path _ => [.declared path]
  | .hasType path operand | .contains path operand => [.declared path, .finite operand]
  | .compare path _ operand | .beginsWith path operand =>
    .declared path :: Check.operand path operand
  | .compareField path _ other => [.declared path, .declared other]
  | .between path low high => .declared path :: (Check.operand path low ++ Check.operand path high)
  | .oneOf path candidates =>
    .nonempty candidates.length .noCandidate :: .declared path ::
      candidates.flatMap (Check.operand path)
  | .group connective operands =>
    .nonempty operands.length (.noOperand connective) :: checksOfAll operands
  | .not operand => checks operand

def checksOfAll : List Condition → List Check
  | [] => []
  | condition :: rest => checks condition ++ checksOfAll rest

end

end Condition

/-- The checks of a value expression, given those of a constant that is the whole of it. -/
def ValueExpr.checks (ofConstant : AttributeValue → List Check) :
    ValueExpr Path AttributeValue → List Check
  | .constant value => ofConstant value
  | .path source => [.declared source]
  | .arithmetic left _ right => checks ([.finite ·]) left ++ checks ([.finite ·]) right
  | .listAppend head tail => checks ([.finite ·]) head ++ checks ([.finite ·]) tail

/-- The checks of a statement: the target, whether it may be updated, and then the value. -/
def Statement.checks (statement : Statement) : List Check :=
  .declared statement.target :: .updatable statement.target ::
    match statement.action with
    | .set value _ => value.checks (Check.operand statement.target)
    | .add value | .delete value => value.checks ([.finite ·])
    | .remove => []

/-- The checks of an update and its condition. -/
def Update.checks (update : Update) (condition? : Option Condition) : List Check :=
  update.flatMap Statement.checks ++ (condition?.map Condition.checks).getD []

/-! ## Computations and their checks -/

open Context (Ready)
open Compile (Succeeds)

namespace Compile

variable {α β : Type}

/-- A computation comes to a result if some checks hold, and else to the error of the first that
fails, in whatever context it starts. -/
structure Judged (family : Family n) (of : Fin n) (computation : Compile α) (checks : List Check)
    (Q : α → Prop) : Prop where
  accepted : (∀ check ∈ checks, check.Holds family of) →
    Succeeds Ready computation fun a ctx => Q a ∧ ctx.Ready
  refused {e : ExpressionError} : FirstFault family of checks e → ∀ ctx, ctx.Ready →
    ∃ ctx', computation.runOn ctx = (.error e, ctx')

namespace Judged

variable {Q Q' : α → Prop} {R : β → Prop} {checks later : List Check}

theorem imp {computation : Compile α} (h : Judged family of computation checks Q)
    (hQ : ∀ a, Q a → Q' a) : Judged family of computation checks Q' where
  accepted hall := (h.accepted hall).imp fun a _ ha => ⟨hQ a ha.1, ha.2⟩
  refused := h.refused

theorem pure (a : α) : Judged family of (Pure.pure a) [] (· = a) where
  accepted _ := Succeeds.pure a
  refused h := nomatch h

/-- The checks of one computation come before those of the next. -/
theorem bind {first : Compile α} {next : α → Compile β}
    (hfirst : Judged family of first checks Q)
    (hnext : ∀ a, Q a → Judged family of (next a) later R) :
    Judged family of (first >>= next) (checks ++ later) R := by
  refine ⟨fun hall => ?_, fun {e} hfault ctx hctx => ?_⟩
  · obtain ⟨hchecks, hlater⟩ := List.forall_mem_append.mp hall
    refine (hfirst.accepted hchecks).bind fun a ctx ha => ?_
    exact (hnext a ha.1).accepted hlater ctx ha.2
  · rw [runOn_bind]
    -- The fault is in the first computation, or this one succeeds and the next one fails.
    obtain hfault | ⟨hchecks, hfault⟩ := hfault.of_append
    · obtain ⟨ctx', hrun⟩ := hfirst.refused hfault ctx hctx
      exact ⟨ctx', by rw [hrun]⟩
    · obtain ⟨a, mid, hrun, ha, hmid⟩ := hfirst.accepted hchecks ctx hctx
      rw [hrun]
      exact (hnext a ha).refused hfault mid hmid

/-- What comes after the last check does not matter. -/
theorem bind_pure {first : Compile α} {f : α → β} (hfirst : Judged family of first checks Q) :
    Judged family of (first >>= fun a => Pure.pure (f a)) checks fun _ => True := by
  have hpure : ∀ a, Q a → Judged family of (Pure.pure (f a)) [] fun _ => True := fun a _ =>
    (pure (f a)).imp fun _ _ => trivial
  have h := hfirst.bind hpure
  rwa [List.append_nil] at h

/-- The checks of a list are those of its members. -/
theorem mapM {f : α → Compile β} {c : α → List Check} (l : List α)
    (hf : ∀ a, Judged family of (f a) (c a) fun _ => True) :
    Judged family of (l.mapM f) (l.flatMap c) fun _ => True := by
  induction l with
  | nil => exact (pure []).imp fun _ _ => trivial
  | cons a rest ih =>
    rw [List.mapM_cons, List.flatMap_cons]
    exact (hf a).bind fun _ _ => ih.bind_pure

/-- A check that is made before anything is bound. -/
theorem cons {check : Check} {computation : Compile α}
    (hholds : check.Holds family of → Judged family of computation checks Q)
    (hfails : ∀ e, check.Fails family of e → ∀ ctx, computation.runOn ctx = (.error e, ctx)) :
    Judged family of computation (check :: checks) Q := by
  refine ⟨fun hall => ?_, fun {e} hfault ctx hctx => ?_⟩
  · obtain ⟨hcheck, hchecks⟩ := List.forall_mem_cons.mp hall
    exact (hholds hcheck).accepted hchecks
  · cases hfault with
    | here _ hcheck => exact ⟨ctx, hfails e hcheck ctx⟩
    | later hcheck hfault => exact (hholds hcheck).refused hfault ctx hctx

/-- A computation that makes one check and no other. -/
theorem single {check : Check} {computation : Compile α}
    (hholds : check.Holds family of → Succeeds Ready computation fun a ctx => Q a ∧ ctx.Ready)
    (hfails : ∀ e, check.Fails family of e → ∀ ctx, computation.runOn ctx = (.error e, ctx)) :
    Judged family of computation [check] Q :=
  cons (fun h => ⟨fun _ => hholds h, nofun⟩) hfails

/-- Nothing is looked at if there are no parts. -/
theorem nonempty {γ : Type} {l : List γ} {fault : ConditionFault} {after : PUnit → Compile α}
    {computation : Compile α} (h : Judged family of computation checks Q) :
    Judged family of
      (if l.isEmpty then throw (.invalidCondition fault) >>= after else computation)
      (.nonempty l.length fault :: checks) Q := by
  refine cons (fun hholds => ?_) fun e hfails ctx => ?_
  · rwa [if_neg]
    rw [List.isEmpty_iff_length_eq_zero]
    exact hholds
  · generalize hcount : l.length = count at hfails
    cases hfails with
    | nonempty =>
      rw [if_pos (List.isEmpty_iff_length_eq_zero.mpr hcount), runOn_bind, runOn_throw]

/-- **The outcome of a computation is that of its checks.** -/
theorem outcome {computation : Compile α} (h : Judged family of computation checks Q)
    {ctx : Context} (hctx : ctx.Ready) :
    ((∃ a ctx', computation.runOn ctx = (.ok a, ctx')) ↔
      ∀ check ∈ checks, check.Holds family of) ∧
    ∀ e, (∃ ctx', computation.runOn ctx = (.error e, ctx')) ↔ FirstFault family of checks e := by
  -- One of the two cases applies, and a run has one outcome only.
  obtain hall | ⟨e, hfault⟩ := FirstFault.all_hold_or_exists family of checks
  · obtain ⟨a, ctx', hrun, -⟩ := h.accepted hall ctx hctx
    refine ⟨iff_of_true ⟨a, ctx', hrun⟩ hall, fun e => iff_of_false ?_ fun hfault => ?_⟩
    · rintro ⟨after, hrun'⟩
      cases hrun.symm.trans hrun'
    · obtain ⟨after, hrun'⟩ := h.refused hfault ctx hctx
      cases hrun.symm.trans hrun'
  · obtain ⟨ctx', hrun⟩ := h.refused hfault ctx hctx
    refine ⟨iff_of_false ?_ fun hall => ?_,
      fun e' => ⟨?_, fun hfault' => h.refused hfault' ctx hctx⟩⟩
    · rintro ⟨a, after, hrun'⟩
      cases hrun.symm.trans hrun'
    · obtain ⟨a, after, hrun', -⟩ := h.accepted hall ctx hctx
      cases hrun.symm.trans hrun'
    · rintro ⟨after, hrun'⟩
      cases hrun.symm.trans hrun'
      exact hfault

end Judged

end Compile

open Compile (Judged)

/-! ## The steps -/

/-- The message about a resolved path names its literal form. -/
theorem ResolvedPath.Tells.display {resolved : ResolvedPath} (h : resolved.Tells family of) :
    resolved.path.display = resolved.literal := by
  rw [Path.display, h.literal]

theorem Path.resolve_judged (path : Path) :
    Judged family of (path.resolve family of) [.declared path] fun resolved =>
      resolved.path = path ∧ resolved.Tells family of := by
  refine .single path.resolve_succeeds fun e hfails ctx => ?_
  cases hfails with
  | declared hrefused => exact Path.runOn_resolve_refused hrefused ctx

theorem Compile.bindValue_judged (value : AttributeValue) :
    Judged family of (Compile.bindValue value) [.finite value] fun _ => True := by
  refine .single (fun hholds => ?_) fun e hfails ctx => ?_
  · rintro ctx ⟨hsound, husable⟩
    obtain ⟨bound, ctx', hbind, husable'⟩ := husable.bindValue (value.storable_iff.mpr hholds)
    refine ⟨bound, ctx', ?_, trivial, ⟨Context.stable_sound.bindValue hsound hbind, husable'⟩⟩
    rw [Compile.bindValue, Compile.runOn_step, hbind]
  · cases hfails with
    | finite hfind =>
      rw [← value.invalidNumber?_eq] at hfind
      rw [Compile.bindValue, Compile.runOn_step, Context.bindValue, hfind]

/-- A value beside a path is checked against the type of the path, then for its numbers. -/
theorem ResolvedPath.Tells.bindOperand_judged {resolved : ResolvedPath}
    (h : resolved.Tells family of) (value : AttributeValue) :
    Judged family of (resolved.bindOperand value) (Check.operand resolved.path value)
      fun _ => True := by
  refine .cons (fun hfits => ?_) fun e hfails ctx => ?_
  · -- The type that the path tells is the declared one, so a value that fits is just bound.
    obtain ⟨-, declared, hdeclared⟩ := h.declared
    have hbind : resolved.bindOperand value = Compile.bindValue value := by
      rw [ResolvedPath.bindOperand]
      split
      · rfl
      · next expected hexpected =>
        rw [h.type declared hdeclared] at hexpected
        have hvalue := hfits declared hdeclared expected hexpected
        rw [if_pos (by simpa using hvalue)]
    rw [hbind]
    exact Compile.bindValue_judged value
  · cases hfails with
    | @fits _ _ declared expected hdeclared htype hnull hvalue =>
      rw [ResolvedPath.bindOperand, h.type declared hdeclared, htype, h.display]
      dsimp only
      rw [if_neg (by simp [hnull, hvalue]), Compile.runOn_throw]

/-! ## Conditions -/

/-- A path, then a value that has to fit it. -/
theorem beside_judged (path : Path) (value : AttributeValue)
    (build : ResolvedPath → BoundValue → ResolvedCondition) :
    Judged family of (do
      let path ← path.resolve family of
      let value ← path.bindOperand value
      return build path value) (.declared path :: Check.operand path value) fun _ => True := by
  refine path.resolve_judged.bind fun resolved h => ?_
  obtain ⟨rfl, h⟩ := h
  exact (h.bindOperand_judged value).bind_pure

namespace Condition

mutual

/-- **The outcome of a condition is that of its checks.** -/
theorem resolve_judged : ∀ condition : Condition, condition.fixedTexts = [] →
    Judged family of (condition.resolve family of) condition.checks fun _ => True
  | .fixed .., hfixed => nomatch hfixed
  | .existence path expected, _ => by
    rw [resolve, checks]
    exact path.resolve_judged.bind_pure
  | .hasType path tag, _ => by
    rw [resolve, checks]
    exact path.resolve_judged.bind fun _ _ => (Compile.bindValue_judged tag).bind_pure
  | .compare path comparison operand, _ => by
    rw [resolve, checks]
    exact beside_judged path operand fun path operand => .compare path comparison operand
  | .compareField path comparison other, _ => by
    rw [resolve, checks]
    exact path.resolve_judged.bind fun _ _ => other.resolve_judged.bind_pure
  | .between path low high, _ => by
    rw [resolve, checks]
    refine path.resolve_judged.bind fun resolved h => ?_
    obtain ⟨rfl, h⟩ := h
    exact (h.bindOperand_judged low).bind fun _ _ => (h.bindOperand_judged high).bind_pure
  | .beginsWith path start, _ => by
    rw [resolve, checks]
    exact beside_judged path start .beginsWith
  | .contains path operand, _ => by
    rw [resolve, checks]
    exact path.resolve_judged.bind fun _ _ => (Compile.bindValue_judged operand).bind_pure
  | .oneOf path candidates, _ => by
    rw [resolve, checks]
    refine .nonempty (path.resolve_judged.bind fun resolved h => ?_)
    obtain ⟨rfl, h⟩ := h
    exact (Judged.mapM candidates h.bindOperand_judged).bind_pure
  | .group connective operands, hfixed => by
    rw [resolve, checks]
    exact .nonempty (resolveAll_judged operands hfixed).bind_pure
  | .not operand, hfixed => by
    rw [resolve, checks]
    exact (resolve_judged operand hfixed).bind_pure

theorem resolveAll_judged : ∀ conditions : List Condition,
    ConditionTree.fixedTextsOfAll conditions = [] →
    Judged family of (resolveAll family of conditions) (checksOfAll conditions) fun _ => True
  | [], _ => by
    rw [resolveAll, checksOfAll]
    exact (Judged.pure []).imp fun _ _ => trivial
  | condition :: rest, hfixed => by
    obtain ⟨hfirst, hrest⟩ := List.append_eq_nil_iff.mp hfixed
    rw [resolveAll, checksOfAll]
    exact (resolve_judged condition hfirst).bind fun _ _ =>
      (resolveAll_judged rest hrest).bind_pure

end

end Condition

/-! ## Updates -/

theorem resolveExpr_judged {bind : AttributeValue → Compile BoundValue}
    {ofConstant : AttributeValue → List Check}
    (hbind : ∀ value, Judged family of (bind value) (ofConstant value) fun _ => True)
    (expr : ValueExpr Path AttributeValue) :
    Judged family of (resolveExpr family of bind expr) (expr.checks ofConstant) fun _ => True := by
  induction expr generalizing bind ofConstant with
  | constant value =>
    rw [resolveExpr, ValueExpr.checks]
    exact (hbind value).bind_pure
  | path path =>
    rw [resolveExpr, ValueExpr.checks]
    exact path.resolve_judged.bind_pure
  | arithmetic left op right ihl ihr =>
    rw [resolveExpr, ValueExpr.checks]
    exact (ihl Compile.bindValue_judged).bind fun _ _ => (ihr Compile.bindValue_judged).bind_pure
  | listAppend head tail ihh iht =>
    rw [resolveExpr, ValueExpr.checks]
    exact (ihh Compile.bindValue_judged).bind fun _ _ => (iht Compile.bindValue_judged).bind_pure

/-- A value expression, and the statement that it makes with a target. -/
theorem carried_judged {bind : AttributeValue → Compile BoundValue}
    {ofConstant : AttributeValue → List Check}
    (hbind : ∀ value, Judged family of (bind value) (ofConstant value) fun _ => True)
    (expr : ValueExpr Path AttributeValue)
    (build : ResolvedExpr → Action ResolvedPath BoundValue) (target : ResolvedPath) :
    Judged family of (do
      let value ← resolveExpr family of bind expr
      let action ← pure (build value)
      return (⟨target, action⟩ : ResolvedStatement)) (expr.checks ofConstant) fun _ => True :=
  (resolveExpr_judged hbind expr).bind_pure

/-- **The outcome of a statement is that of its checks.** -/
theorem Statement.resolve_judged (statement : Statement) :
    Judged family of (statement.resolve family of) statement.checks fun _ => True := by
  obtain ⟨target, action⟩ := statement
  unfold Statement.resolve
  refine target.resolve_judged.bind fun resolved h => ?_
  obtain ⟨rfl, h⟩ := h
  refine .cons (fun hupdatable => ?_) fun e hfails ctx => ?_
  · rw [if_neg (mt h.key.mp hupdatable)]
    cases action with
    | set value overwrite => exact carried_judged h.bindOperand_judged value (.set · overwrite) _
    | add value => exact carried_judged Compile.bindValue_judged value .add resolved
    | remove => exact (Judged.pure _).imp fun _ _ => trivial
    | delete value => exact carried_judged Compile.bindValue_judged value .delete resolved
  · cases hfails with
    | updatable hkey =>
      rw [if_pos (h.key.mpr hkey), Compile.runOn_bind, Compile.runOn_throw, h.display]

theorem compileCondition?_judged (condition? : Option Condition)
    (hfree : ∀ condition ∈ condition?, condition.FixedFree) :
    Judged family of (compileCondition? family of condition?)
      ((condition?.map Condition.checks).getD []) fun _ => True := by
  cases condition? with
  | none => exact (Judged.pure none).imp fun _ _ => trivial
  | some condition => exact (condition.resolve_judged (hfree condition rfl)).bind_pure.bind_pure

/-- **The outcome of an update is that of its checks.** -/
theorem Update.compile_judged (update : Update) (condition? : Option Condition)
    (hfree : ∀ condition ∈ condition?, condition.FixedFree) :
    Judged family of (update.compile family of condition?) (update.checks condition?)
      fun _ => True := by
  unfold Update.compile
  refine (Judged.mapM update Statement.resolve_judged).bind fun statements _ => ?_
  exact (compileCondition?_judged condition? hfree).bind_pure

/-! ## The main result -/

/-- What an expression comes to does not depend on the context in which it is compiled: it is
accepted just if its checks hold, and its error is that of the first check that does not. -/
def DecidedBy {α : Type} (family : Family n) (of : Fin n) (checks : List Check)
    (computation : Compile α) : Prop :=
  ∀ ctx : Context, ctx.Reached → ctx.Usable →
    ((∃ a ctx', computation.runOn ctx = (.ok a, ctx')) ↔
      ∀ check ∈ checks, check.Holds family of) ∧
    ∀ e, (∃ ctx', computation.runOn ctx = (.error e, ctx')) ↔ FirstFault family of checks e

/-- **Acceptance depends on the schema alone.**  A condition without fixed text, and an update with
or without such a condition, is accepted in every reached context in which codes can be minted, or
in none; and if it is not accepted, the error is everywhere that of the first check that fails. -/
theorem accepted_by_schema (family : Family n) (of : Fin n) :
    (∀ condition : Condition, condition.FixedFree →
      DecidedBy family of condition.checks (condition.compile family of)) ∧
    ∀ (update : Update) (condition? : Option Condition),
      (∀ condition ∈ condition?, condition.FixedFree) →
        DecidedBy family of (update.checks condition?) (update.compile family of condition?) := by
  constructor
  · intro condition hfree ctx hctx husable
    exact (condition.resolve_judged hfree).bind_pure.outcome ⟨hctx.sound, husable⟩
  · intro update condition? hfree ctx hctx husable
    exact (update.compile_judged condition? hfree).outcome ⟨hctx.sound, husable⟩

/-- In a context in which a name is bound and a path was refused, a mentor may be nothing at all,
and of two faults of an update the first is reported. -/
theorem accepted_by_schema_persons :
    let ctx := (((Path.ofName "surname").resolve persons 0).runOn
      (((Path.ofName "name").resolve persons 0).runOn (.fresh "AB")).2).2
    (∃ fragment ctx', (Condition.compile persons 0
      (.oneOf (.ofName "mentor") [.null true, .map []])).runOn ctx = (.ok fragment, ctx')) ∧
    ∃ ctx', (Update.compile persons 0 [
      ⟨.ofName "name", .set (.arithmetic (.path (.ofName "age")) .plus
        (.constant (.number "ten"))) true⟩,
      ⟨.ofName "id", .remove⟩] none).runOn ctx = (.error (.invalidNumber "ten"), ctx') := by
  intro ctx
  have hctx : ctx.Reached := .path persons 0 (.ofName "surname")
    (.path persons 0 (.ofName "name") (.fresh "AB"))
  have hsymbols : (Alphabet.ofSymbols ctx.symbols).toOption.map Alphabet.symbols =
      some ['A', 'B'] := by
    decide +kernel
  have husable : ctx.Usable := Context.usable_of_symbols hsymbols
  have hdeclares : ∀ field ∈ (persons 0).fields,
      persons.Declares 0 (Path.ofName field.name).segments (.field field) := fun field hfield =>
    Family.Declares.item.field rfl hfield
  have hname := hdeclares ⟨"name", false, none, .scalar .string false⟩ (by decide)
  have hage := hdeclares ⟨"age", false, none, .scalar (.integer .int64) true⟩ (by decide)
  have hmentor := hdeclares ⟨"mentor", false, none, .entity 0⟩ (by decide)
  obtain ⟨hconditions, hupdates⟩ := accepted_by_schema persons 0
  constructor
  · refine ((hconditions (.oneOf (.ofName "mentor") [.null true, .map []]) rfl) ctx hctx
      husable).1.mpr ?_
    have hfits : ∀ value : AttributeValue, value.isNull = true ∨ value.type = .map →
        (Check.fits (.ofName "mentor") value).Holds persons 0 := fun value hvalue =>
      Check.fits_of_declares hmentor (by rintro _ ⟨⟩; exact hvalue)
    intro check hcheck
    simp only [Condition.checks, Check.operand, List.flatMap_cons, List.flatMap_nil,
      List.cons_append, List.nil_append, List.append_nil, List.mem_cons, List.not_mem_nil,
      or_false] at hcheck
    rcases hcheck with rfl | rfl | rfl | rfl | rfl | rfl
    · exact Nat.succ_ne_zero 1
    · exact ⟨by decide, _, hmentor⟩
    · exact hfits _ (.inl rfl)
    · exact List.forall_mem_nil _
    · exact hfits _ (.inr rfl)
    · exact List.forall_mem_nil _
  · refine ((hupdates _ none fun _ h => absurd h (Option.not_mem_none _)) ctx hctx husable).2 _
      |>.mpr ?_
    have hfield : (⟨"name", false, none, .scalar .string false⟩ : Field 1) ∈
        (persons 0).fields := by decide
    have hupdatable : (Check.updatable (.ofName "name")).Holds persons 0 := fun hstart => by
      cases (Family.startsAtKey_iff hfield []).mp hstart
    -- The target and the path beside it are declared; the number comes next.
    exact .later ⟨by decide, _, hname⟩ (.later hupdatable (.later ⟨by decide, _, hage⟩
      (.here _ (.finite (by decide +kernel)))))

end DocExpr
