import DocExpr.Proofs.Meaning

/-!
# Conditions keep their meaning

The contexts of a program are reached from a fresh one by resolving conditions, statements and
paths, in any order, each with success or without.  In all of them the placeholders are names and
values of the expected form, and fields and name placeholders belong together one to one.  So a
condition that resolves in such a context reads, through its own dictionaries, as what its author
wrote.

The values need a second look, because equal literals are not shared: each occurrence has a
placeholder of its own, and the entries of the values are the literals, as often as they occur.

## Main definitions

* `Context.Sound`: the invariant of the contexts of a program
* `Context.Reached`: those contexts

## Main results

* `Context.Reached.sound`: every reached context is sound
* `Condition.resolve_keeps_meaning`: what a resolved condition reads as, and what it declares
-/

namespace DocExpr

variable {n : Nat} {family : Family n} {of : Fin n}

namespace Context

/-! ## Reached contexts -/

/-- Fields and placeholders belong together one to one, and placeholders are of their forms. -/
structure Sound (ctx : Context) : Prop where
  linked : ctx.Linked
  interned : ctx.Interned
  formed : ctx.Formed IsName IsValue

theorem sound_fresh (alphabet : String) : (fresh alphabet).Sound :=
  ⟨nofun, nofun, ⟨nofun, nofun⟩⟩

theorem stable_sound : Stable Sound where
  linked h := h.linked
  bindName h hcode hbind := by
    refine ⟨Linked.bindName h.linked hbind, Interned.bindName h.interned hbind, ?_⟩
    exact h.formed.bindName (fun token htoken => ⟨token, htoken, rfl⟩) hcode hbind
  bindValue h hbind := by
    refine ⟨Linked.bindValue h.linked hbind, Interned.bindValue h.interned hbind, ?_⟩
    exact h.formed.bindValue (fun token htoken => ⟨token, htoken, rfl⟩) hbind

/-- The contexts of a program: conditions without fixed text, statements and paths are resolved one
after the other, each over a schema of its own and each with success or without. -/
inductive Reached : Context → Prop where
  | fresh (alphabet : String) : Reached (fresh alphabet)
  | condition {ctx : Context} {n : Nat} (family : Family n) (of : Fin n) (condition : Condition) :
    condition.FixedFree → Reached ctx → Reached ((condition.resolve family of).runOn ctx).2
  | statement {ctx : Context} {n : Nat} (family : Family n) (of : Fin n) (statement : Statement) :
    Reached ctx → Reached ((statement.resolve family of).runOn ctx).2
  | path {ctx : Context} {n : Nat} (family : Family n) (of : Fin n) (path : Path) :
    Reached ctx → Reached ((path.resolve family of).runOn ctx).2

end Context

/-- Without fixed text nothing is reserved. -/
theorem ConditionTree.FixedFree.admits {condition : Condition} (h : condition.FixedFree)
    (I : Context → Prop) : ∀ text ∈ condition.fixedTexts, Context.Admits I text := by
  intro text htext
  rw [h] at htext
  cases htext

/-- **Every reached context is sound.** -/
theorem Context.Reached.sound {ctx : Context} (h : ctx.Reached) : ctx.Sound := by
  induction h with
  | fresh alphabet => exact sound_fresh alphabet
  | condition family of condition hfree _ ih =>
    exact (condition.resolve_spec stable_sound (hfree.admits Sound)).keeps ih
  | statement family of statement _ ih => exact (statement.resolve_spec stable_sound).keeps ih
  | path family of path _ ih => exact (path.resolve_spec stable_sound).keeps ih

/-! ## The values of a condition -/

namespace Fragment

@[simp] theorem mem_values_enclose (before : String) (a : Fragment) (after placeholder : String) :
    placeholder ∈ (enclose before a after).values.keys ↔ placeholder ∈ a.values.keys := by
  simp [enclose, Dict.mem_keys_merge, ofText]

end Fragment

namespace ResolvedCondition

open ConditionTree

mutual

/-- The values that a condition declares are those at its leaves. -/
theorem mem_values_fragment (placeholder : String) : ∀ condition : ResolvedCondition,
    condition.fixedTexts = [] → (∀ path ∈ condition.paths, path.fragment.values = ∅) →
      (placeholder ∈ condition.fragment.values.keys ↔
        placeholder ∈ condition.literals.map BoundValue.placeholder)
  | .fixed .., hfree, _ => by simp [fixedTexts] at hfree
  | .existence path true, _, hpaths | .existence path false, _, hpaths => by
    have hpath : path.fragment.values = ∅ := hpaths path (by simp [paths])
    simp [fragment, literals, Fragment.call, Fragment.mem_values_join, hpath]
  | .hasType path operand, _, hpaths | .beginsWith path operand, _, hpaths
  | .contains path operand, _, hpaths | .compare path _ operand, _, hpaths => by
    have hpath : path.fragment.values = ∅ := hpaths path (by simp [paths])
    simp [fragment, literals, Fragment.call, Fragment.mem_values_join, hpath, BoundValue.fragment]
  | .compareField path _ other, _, hpaths => by
    have hpath : path.fragment.values = ∅ := hpaths path (by simp [paths])
    have hother : other.fragment.values = ∅ := hpaths other (by simp [paths])
    simp [fragment, literals, Fragment.mem_values_join, hpath, hother]
  | .between path low high, _, hpaths => by
    have hpath : path.fragment.values = ∅ := hpaths path (by simp [paths])
    simp [fragment, literals, Fragment.mem_values_join, Dict.mem_keys_merge, hpath,
      BoundValue.fragment, Fragment.ofText]
  | .oneOf path candidates, _, hpaths => by
    have hpath : path.fragment.values = ∅ := hpaths path (by simp [paths])
    rw [fragment, Fragment.values_append, Dict.mem_keys_merge, hpath, Fragment.call,
      Fragment.mem_values_enclose, Fragment.mem_values_join, literals]
    simp [BoundValue.fragment, eq_comm]
  | .group _ operands, hfree, hpaths => by
    -- The words between the operands and the parentheses around them declare nothing.
    rw [fragment, Fragment.mem_values_join]
    exact mem_values_enclosed placeholder operands hfree hpaths
  | .not operand, hfree, hpaths => by
    rw [fragment, Fragment.mem_values_enclose]
    exact mem_values_fragment placeholder operand hfree hpaths

theorem mem_values_enclosed (placeholder : String) : ∀ operands : List ResolvedCondition,
    fixedTextsOfAll operands = [] → (∀ path ∈ pathsOfAll operands, path.fragment.values = ∅) →
      ((∃ a ∈ enclosed operands, placeholder ∈ a.values.keys) ↔
        placeholder ∈ (literalsOfAll operands).map BoundValue.placeholder)
  | [], _, _ => by simp [enclosed, literalsOfAll]
  | operand :: rest, hfree, hpaths => by
    obtain ⟨hfirst, hlater⟩ := List.append_eq_nil_iff.mp hfree
    obtain ⟨hpaths, hpaths'⟩ := List.forall_mem_append.mp hpaths
    have hhead := mem_values_fragment placeholder operand hfirst hpaths
    have htail := mem_values_enclosed placeholder rest hlater hpaths'
    simp only [enclosed, List.mem_cons, exists_eq_or_imp, Fragment.mem_values_enclose,
      literalsOfAll, List.map_append, List.mem_append, hhead, htail]

end

end ResolvedCondition

/-- A family of one entity: a person has an identifier, a name, an age and a mentor. -/
def persons : Family 1 := fun _ => {
  entity := "Person"
  fields := [
    { name := "id", isKey := true, code := some "A", kind := .scalar .string false },
    { name := "name", kind := .scalar .string false },
    { name := "age", kind := .scalar (.integer .int64) true },
    { name := "mentor", kind := .entity 0 }]
  wellFormed := ⟨by decide, by decide, by decide, by decide⟩ }

end DocExpr
