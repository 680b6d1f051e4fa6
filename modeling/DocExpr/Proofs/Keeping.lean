import DocExpr.Proofs.Leaves
import DocExpr.Proofs.Run

/-!
# What resolving keeps

A property of contexts that every step keeps is kept by a whole computation, whether it ends with a
result or fails on the way.  Which steps there are can be told from the leaves: names are bound for
paths, values for literals, and reservations are made for the texts of the caller.

This is for properties that depend on what is bound, such as that all values are of some form;
properties that any binding keeps are `Context.Stable`.

## Main definitions

* `Compile.Keeps`: a computation keeps a property of contexts
* `KeptByLeaves`: a property that is kept by all steps that some leaves ask for

## Main results

* `Condition.resolve_keeps`, `resolveExpr_keeps`, `Statement.resolve_keeps`: what the leaves keep is
  kept by the whole
-/

namespace DocExpr

variable {n : Nat} {family : Family n} {of : Fin n} {J : Context → Prop}

namespace Compile

variable {α β : Type}

/-- However it ends, a computation leaves a context with a property if it was given one. -/
def Keeps (J : Context → Prop) (computation : Compile α) : Prop :=
  ∀ ctx : Context, J ctx → J (computation.runOn ctx).2

namespace Keeps

theorem pure (a : α) : Keeps J (Pure.pure a) := fun _ h => h

theorem ofExcept (result : Except ExpressionError α) : Keeps J (Compile.ofExcept result) :=
  fun _ h => h

theorem throw (e : ExpressionError) : Keeps J (MonadExcept.throw e : Compile α) := fun _ h => h

theorem get : Keeps J (MonadState.get : Compile Context) := fun _ h => h

theorem bind {first : Compile α} {next : α → Compile β} (hfirst : Keeps J first)
    (hnext : ∀ a, Keeps J (next a)) : Keeps J (first >>= next) := by
  intro ctx h
  have hmid := hfirst ctx h
  rw [runOn_bind]
  split
  · next a mid heq =>
    rw [heq] at hmid
    exact hnext a mid hmid
  · next e mid heq => rwa [heq] at hmid

/-- Nothing comes after a failure. -/
theorem throw_bind (e : ExpressionError) (next : α → Compile β) :
    Keeps J (MonadExcept.throw e >>= next) := fun _ h => h

theorem ite {c : Prop} [Decidable c] {yes no : Compile α} (hyes : Keeps J yes)
    (hno : Keeps J no) : Keeps J (if c then yes else no) := by
  split
  · exact hyes
  · exact hno

theorem mapM {f : α → Compile β} (l : List α) (hf : ∀ a ∈ l, Keeps J (f a)) :
    Keeps J (l.mapM f) := by
  induction l with
  | nil =>
    rw [List.mapM_nil]
    exact pure []
  | cons a l ih =>
    obtain ⟨ha, hl⟩ := List.forall_mem_cons.mp hf
    rw [List.mapM_cons]
    exact ha.bind fun _ => (ih hl).bind fun _ => pure _

theorem forM {f : α → Compile Unit} (l : List α) (hf : ∀ a ∈ l, Keeps J (f a)) :
    Keeps J (l.forM f) := by
  induction l with
  | nil => exact pure ()
  | cons a l ih =>
    obtain ⟨ha, hl⟩ := List.forall_mem_cons.mp hf
    exact ha.bind fun _ => ih hl

/-- A step that fails leaves the context as it was. -/
theorem step {f : Context → Except ExpressionError (α × Context)}
    (h : ∀ {ctx a ctx'}, J ctx → f ctx = .ok (a, ctx') → J ctx') : Keeps J (Compile.step f) := by
  intro ctx hctx
  rw [runOn_step]
  cases hf : f ctx with
  | error e => exact hctx
  | ok pair => exact h hctx hf

end Keeps

end Compile

open Compile (Keeps)

/-- A property that is kept by binding any name and some literals, and by the reservations of some
texts of the caller. -/
structure KeptByLeaves (J : Context → Prop) (literals : List AttributeValue)
    (texts : List Fragment) : Prop where
  bindName : ∀ field code, Keeps J (Compile.bindName field code)
  bindValue : ∀ value ∈ literals, Keeps J (Compile.bindValue value)
  reserveName : ∀ text ∈ texts, ∀ entry ∈ text.names.entries,
    Keeps J (Compile.reserveName entry.1 entry.2)
  reserveValue : ∀ text ∈ texts, ∀ entry ∈ text.values.entries,
    Keeps J (Compile.reserveValue entry.1 entry.2)

namespace KeptByLeaves

variable {literals literals' : List AttributeValue} {texts texts' : List Fragment}

/-- Fewer leaves ask for fewer steps. -/
theorem anti (h : KeptByLeaves J literals texts) (hliterals : literals' ⊆ literals)
    (htexts : texts' ⊆ texts) : KeptByLeaves J literals' texts' :=
  ⟨h.bindName, fun value hv => h.bindValue value (hliterals hv),
    fun text ht => h.reserveName text (htexts ht), fun text ht => h.reserveValue text (htexts ht)⟩

theorem left (h : KeptByLeaves J (literals ++ literals') (texts ++ texts')) :
    KeptByLeaves J literals texts :=
  h.anti (List.subset_append_left ..) (List.subset_append_left ..)

theorem right (h : KeptByLeaves J (literals ++ literals') (texts ++ texts')) :
    KeptByLeaves J literals' texts' :=
  h.anti (List.subset_append_right ..) (List.subset_append_right ..)

end KeptByLeaves

/-! ## Paths and operands -/

theorem bindFields_keeps (h : ∀ field code, Keeps J (Compile.bindName field code))
    (fields : List (Field n)) (names : Dict String) : Keeps J (bindFields fields names) := by
  induction fields generalizing names with
  | nil => exact Keeps.pure names
  | cons field rest ih => exact (h field.name field.code).bind fun placeholder => ih _

theorem Path.resolve_keeps (h : ∀ field code, Keeps J (Compile.bindName field code))
    (path : Path) : Keeps J (path.resolve family of) :=
  (Keeps.ofExcept _).bind fun _ => (Keeps.ofExcept _).bind fun _ =>
    (bindFields_keeps h _ _).bind fun _ => Keeps.get.bind fun _ =>
      (Keeps.ofExcept _).bind fun _ => Keeps.pure _

theorem ResolvedPath.bindOperand_keeps (path : ResolvedPath) {value : AttributeValue}
    (h : Keeps J (Compile.bindValue value)) : Keeps J (path.bindOperand value) := by
  unfold ResolvedPath.bindOperand
  split
  · exact h
  · exact Keeps.ite h (Keeps.throw _)

/-! ## Conditions -/

namespace Condition

open ConditionTree

mutual

/-- **What the leaves of a condition keep is kept by resolving it.** -/
theorem resolve_keeps : ∀ condition : Condition,
    KeptByLeaves J condition.literals condition.fixedTexts →
      Keeps J (condition.resolve family of)
  | .fixed text names values, h => by
    rw [resolve]
    exact (Keeps.forM _ (h.reserveName _ (List.mem_singleton_self _))).bind fun _ =>
      (Keeps.forM _ (h.reserveValue _ (List.mem_singleton_self _))).bind fun _ => Keeps.pure _
  | .existence path expected, h => by
    rw [resolve]
    exact (path.resolve_keeps h.bindName).bind fun _ => Keeps.pure _
  | .hasType path tag, h => by
    rw [resolve]
    exact (path.resolve_keeps h.bindName).bind fun _ =>
      (h.bindValue tag (by simp [literals])).bind fun _ => Keeps.pure _
  | .compare path comparison operand, h => by
    rw [resolve]
    exact (path.resolve_keeps h.bindName).bind fun path =>
      (path.bindOperand_keeps (h.bindValue operand (by simp [literals]))).bind fun _ => Keeps.pure _
  | .compareField path comparison other, h => by
    rw [resolve]
    exact (path.resolve_keeps h.bindName).bind fun _ =>
      (other.resolve_keeps h.bindName).bind fun _ => Keeps.pure _
  | .between path low high, h => by
    rw [resolve]
    exact (path.resolve_keeps h.bindName).bind fun path =>
      (path.bindOperand_keeps (h.bindValue low (by simp [literals]))).bind fun _ =>
        (path.bindOperand_keeps (h.bindValue high (by simp [literals]))).bind fun _ => Keeps.pure _
  | .beginsWith path start, h => by
    rw [resolve]
    exact (path.resolve_keeps h.bindName).bind fun path =>
      (path.bindOperand_keeps (h.bindValue start (by simp [literals]))).bind fun _ => Keeps.pure _
  | .contains path operand, h => by
    rw [resolve]
    exact (path.resolve_keeps h.bindName).bind fun _ =>
      (h.bindValue operand (by simp [literals])).bind fun _ => Keeps.pure _
  | .oneOf path candidates, h => by
    rw [resolve]
    refine Keeps.ite (Keeps.throw_bind _ _) ?_
    exact (path.resolve_keeps h.bindName).bind fun path =>
      (Keeps.mapM _ fun value hv => path.bindOperand_keeps (h.bindValue value hv)).bind fun _ =>
        Keeps.pure _
  | .group connective operands, h => by
    rw [resolve]
    refine Keeps.ite (Keeps.throw_bind _ _) ?_
    exact (resolveAll_keeps operands h).bind fun _ => Keeps.pure _
  | .not operand, h => by
    rw [resolve]
    exact (resolve_keeps operand h).bind fun _ => Keeps.pure _

theorem resolveAll_keeps : ∀ conditions : List Condition,
    KeptByLeaves J (literalsOfAll conditions) (fixedTextsOfAll conditions) →
      Keeps J (resolveAll family of conditions)
  | [], _ => by
    rw [resolveAll]
    exact Keeps.pure []
  | condition :: rest, h => by
    rw [resolveAll]
    exact (resolve_keeps condition h.left).bind fun _ =>
      (resolveAll_keeps rest h.right).bind fun _ => Keeps.pure _

end

end Condition

/-! ## Statements -/

/-- What the literals of a value expression keep is kept by resolving it. -/
theorem resolveExpr_keeps {bind : AttributeValue → Compile BoundValue}
    (expr : ValueExpr Path AttributeValue) (h : KeptByLeaves J expr.literals [])
    (hbind : ∀ value ∈ expr.literals, Keeps J (bind value)) :
    Keeps J (resolveExpr family of bind expr) := by
  induction expr generalizing bind with
  | constant value =>
    exact (hbind value (List.mem_singleton_self _)).bind fun _ => Keeps.pure _
  | path path => exact (path.resolve_keeps h.bindName).bind fun _ => Keeps.pure _
  | arithmetic left op right ihl ihr =>
    have h : KeptByLeaves J (left.literals ++ right.literals) ([] ++ []) := h
    exact (ihl h.left h.left.bindValue).bind fun _ =>
      (ihr h.right h.right.bindValue).bind fun _ => Keeps.pure _
  | listAppend head tail ihh iht =>
    have h : KeptByLeaves J (head.literals ++ tail.literals) ([] ++ []) := h
    exact (ihh h.left h.left.bindValue).bind fun _ =>
      (iht h.right h.right.bindValue).bind fun _ => Keeps.pure _

/-- **What the leaves of a statement keep is kept by resolving it.** -/
theorem Statement.resolve_keeps (statement : Statement)
    (h : KeptByLeaves J statement.literals []) : Keeps J (statement.resolve family of) := by
  obtain ⟨target, action⟩ := statement
  unfold Statement.resolve
  refine (target.resolve_keeps h.bindName).bind fun target =>
    Keeps.ite (Keeps.throw_bind _ _) ?_
  cases action with
  | set expr overwrite =>
    have hoperand : ∀ value ∈ expr.literals, Keeps J (target.bindOperand value) :=
      fun value hv => target.bindOperand_keeps (h.bindValue value hv)
    exact (resolveExpr_keeps expr h hoperand).bind fun _ => (Keeps.pure _).bind fun _ =>
      Keeps.pure _
  | add expr | delete expr =>
    exact (resolveExpr_keeps expr h h.bindValue).bind fun _ => (Keeps.pure _).bind fun _ =>
      Keeps.pure _
  | remove => exact (Keeps.pure _).bind fun _ => Keeps.pure _

end DocExpr
