import DocExpr.Proofs.Export
import DocExpr.Proofs.Run
import DocExpr.Update.Compile

/-!
# Computations that succeed

What a computation does if it succeeds is one thing, that it succeeds is another.  Steps fail for
few reasons: the symbols of the context make no alphabet, a value holds a number that is not finite,
or a placeholder of the caller has another meaning already.  Symbols never change, so where they
make an alphabet they go on making one, and a statement that gives a declared field a value of its
type succeeds.

## Main definitions

* `Compile.Succeeds J computation Q`: from every context with `J` the computation ends with a
  result, and `Q` holds of the result and the context after it
* `Context.Usable`: the symbols of a context make an alphabet

## Main results

* `Compile.Succeeds.bind`, `Compile.Succeeds.mapM`: computations one after the other
* `Path.resolve_ofName_succeeds`: the path of a declared field resolves
* `Statement.overwrite_succeeds`: a declared field outside the key can be given a value of its type
-/

namespace DocExpr

variable {n : Nat} {family : Family n} {of : Fin n}

namespace Compile

variable {α β : Type} {J : Context → Prop} {Q Q' : α → Context → Prop}

/-- From every context with a property a computation ends with a result. -/
def Succeeds (J : Context → Prop) (computation : Compile α) (Q : α → Context → Prop) : Prop :=
  ∀ ctx, J ctx → ∃ a ctx', computation.runOn ctx = (.ok a, ctx') ∧ Q a ctx'

namespace Succeeds

theorem imp {computation : Compile α} (h : Succeeds J computation Q)
    (hQ : ∀ a ctx, Q a ctx → Q' a ctx) : Succeeds J computation Q' := fun ctx hctx =>
  let ⟨a, ctx', hrun, ha⟩ := h ctx hctx
  ⟨a, ctx', hrun, hQ a ctx' ha⟩

theorem pure (a : α) : Succeeds J (Pure.pure a) fun b ctx => b = a ∧ J ctx := fun ctx hctx =>
  ⟨a, ctx, rfl, rfl, hctx⟩

theorem bind {first : Compile α} {next : α → Compile β} {R : β → Context → Prop}
    (hfirst : Succeeds J first Q) (hnext : ∀ a, Succeeds (Q a) (next a) R) :
    Succeeds J (first >>= next) R := by
  intro ctx hctx
  obtain ⟨a, mid, hrun, ha⟩ := hfirst ctx hctx
  obtain ⟨b, ctx', hrun', hb⟩ := hnext a mid ha
  exact ⟨b, ctx', runOn_bind_eq_ok_iff.mpr ⟨a, mid, hrun, hrun'⟩, hb⟩

/-- What does not look at the context is known beforehand. -/
theorem ofExcept_bind {result : Except ExpressionError α} {a : α} {next : α → Compile β}
    {R : β → Context → Prop} (h : result = .ok a) (hnext : Succeeds J (next a) R) :
    Succeeds J (Compile.ofExcept result >>= next) R := by
  intro ctx hctx
  obtain ⟨b, ctx', hrun, hb⟩ := hnext ctx hctx
  exact ⟨b, ctx', runOn_bind_eq_ok_iff.mpr ⟨a, ctx, by rw [h]; rfl, hrun⟩, hb⟩

/-- Computations that keep what they need can be made one after the other. -/
theorem mapM {f : α → Compile β} (l : List α) (hf : ∀ a ∈ l, Succeeds J (f a) fun _ ctx => J ctx) :
    Succeeds J (l.mapM f) fun _ ctx => J ctx := by
  induction l with
  | nil =>
    rw [List.mapM_nil]
    exact (pure []).imp fun _ _ h => h.2
  | cons a rest ih =>
    obtain ⟨ha, hrest⟩ := List.forall_mem_cons.mp hf
    rw [List.mapM_cons]
    exact ha.bind fun _ => (ih hrest).bind fun _ => (pure _).imp fun _ _ h => h.2

theorem step {f : Context → Except ExpressionError (α × Context)}
    (h : ∀ ctx, J ctx → ∃ a ctx', f ctx = .ok (a, ctx') ∧ Q a ctx') :
    Succeeds J (Compile.step f) Q := by
  intro ctx hctx
  obtain ⟨a, ctx', hstep, ha⟩ := h ctx hctx
  exact ⟨a, ctx', by rw [runOn_step, hstep], ha⟩

end Succeeds

end Compile

/-! ## Steps -/

namespace Context

/-- Codes can be minted. -/
def Usable (ctx : Context) : Prop := ∃ alphabet, Alphabet.ofSymbols ctx.symbols = .ok alphabet

variable {ctx : Context}

theorem Usable.mint {α : Type} (h : ctx.Usable) (placeholder : String → String) (taken : Dict α) :
    ∃ p position, ctx.mint placeholder taken = .ok (p, { ctx with position }) := by
  obtain ⟨alphabet, halphabet⟩ := h
  exact ⟨_, _, by rw [Context.mint, halphabet]⟩

/-- A name is bound by its short code, or else by a code that is minted. -/
theorem Usable.bindName (h : ctx.Usable) (field : String) (code : Option String) :
    ∃ placeholder ctx', ctx.bindName field code = .ok (placeholder, ctx') ∧
      ctx'.names.get? field = some placeholder ∧ ctx'.Usable := by
  rw [Context.bindName]
  split
  · next placeholder hbound => exact ⟨placeholder, ctx, rfl, hbound, h⟩
  · split
    · next placeholder _ =>
      refine ⟨placeholder, _, rfl, ?_, h⟩
      show (ctx.names.insert field placeholder).get? field = some placeholder
      rw [Dict.get?_insert, if_pos rfl]
    · obtain ⟨placeholder, position, hmint⟩ := h.mint namePlaceholder ctx.owners
      rw [hmint]
      refine ⟨placeholder, _, rfl, ?_, h⟩
      show (ctx.names.insert field placeholder).get? field = some placeholder
      rw [Dict.get?_insert, if_pos rfl]

/-- A value whose numbers are finite is bound by a code that is minted. -/
theorem Usable.bindValue (h : ctx.Usable) {value : AttributeValue} (hvalue : value.Storable) :
    ∃ bound ctx', ctx.bindValue value = .ok (bound, ctx') ∧ ctx'.Usable := by
  obtain ⟨placeholder, position, hmint⟩ := h.mint valuePlaceholder ctx.values
  rw [Context.bindValue, hvalue, hmint]
  exact ⟨_, _, rfl, h⟩

end Context

open Compile (Succeeds)
open Context (Usable)

/-! ## The fields of a record -/

/-- What the place of a field knows of its type is the declared type. -/
theorem Place.type?_ofField (field : Field n) :
    (Place.ofField field).type? = some field.kind.attributeType := by
  obtain ⟨name, isKey, code, kind⟩ := field
  cases kind <;> rfl

/-- A name by itself is written as what it is written as. -/
theorem Path.render_ofName {nameOf : String → Except ExpressionError String} {name text : String}
    (h : nameOf name = .ok text) : (Path.ofName name).render nameOf = .ok text := by
  show Path.renderSegments nameOf "" [.field name] = .ok text
  rw [Path.renderSegments, h]
  rfl

/-- **The path of a declared field resolves**, whatever signs are in its name. -/
theorem Path.resolve_ofName_succeeds {field : Field n}
    (hfield : (family of).field? field.name = some field) :
    Succeeds Usable ((Path.ofName field.name).resolve family of) fun resolved ctx =>
      (resolved.type? = some field.kind.attributeType ∧ resolved.rootIsKey = field.isKey) ∧
        ctx.Usable := by
  have hwalk : ∀ literal, family.walk literal (.root of) (Path.ofName field.name).segments =
      .ok ([field], .ofField field) := by
    intro literal
    show family.walk literal (.root of) [.field field.name] = _
    simp only [Family.walk, Place.entity?, Option.bind_some, hfield]
    rfl
  -- The only name of the path is bound, so the path can be written with placeholders.
  have hbind : Succeeds Usable (bindFields [field] ∅) fun _ ctx =>
      (∃ placeholder, ctx.names.get? field.name = some placeholder) ∧ ctx.Usable := by
    refine Succeeds.bind (.step fun ctx hctx => hctx.bindName field.name field.code)
      fun placeholder => (Succeeds.pure _).imp ?_
    rintro names ctx ⟨-, hbound, hctx⟩
    exact ⟨⟨placeholder, hbound⟩, hctx⟩
  unfold Path.resolve
  refine .ofExcept_bind (Path.render_ofName rfl) (.ofExcept_bind (hwalk field.name) ?_)
  refine hbind.bind fun names ctx => ?_
  rintro ⟨⟨placeholder, hbound⟩, hctx⟩
  have htext : (Path.ofName field.name).withNames ctx.names = .ok placeholder :=
    Path.render_ofName (by rw [hbound])
  refine ⟨_, ctx, Compile.runOn_bind_eq_ok_iff.mpr ⟨ctx, ctx, rfl,
    Compile.runOn_bind_eq_ok_iff.mpr ⟨placeholder, ctx, by rw [htext]; rfl, rfl⟩⟩, ?_, hctx⟩
  exact ⟨Place.type?_ofField field, rfl⟩

/-- **A declared field outside the key can be given a value of its type**, if all numbers in the
value are finite. -/
theorem Statement.overwrite_succeeds {field : Field n}
    (hfield : (family of).field? field.name = some field) (hkey : field.isKey = false)
    {value : AttributeValue} (htype : value.type = field.kind.attributeType)
    (hvalue : value.Storable) :
    Succeeds Usable (Statement.resolve family of
      ⟨.ofName field.name, .set (.constant value) true⟩) fun _ ctx => ctx.Usable := by
  unfold Statement.resolve
  refine (Path.resolve_ofName_succeeds hfield).bind fun target ctx => ?_
  rintro ⟨⟨htarget, hroot⟩, hctx⟩
  -- An operand is checked against the type of the target, which is that of the field.
  have hoperand : target.bindOperand value = Compile.bindValue value := by
    rw [ResolvedPath.bindOperand, htarget]
    dsimp only
    rw [if_pos (by simp [htype])]
  obtain ⟨bound, ctx', hbind, hctx'⟩ := hctx.bindValue hvalue
  have hrun : (target.bindOperand value).runOn ctx = (.ok bound, ctx') := by
    rw [hoperand, Compile.bindValue, Compile.runOn_step, hbind]
  rw [if_neg (by simp [hroot, hkey])]
  refine ⟨⟨target, .set (.constant bound) true⟩, ctx', ?_, hctx'⟩
  have hexpr : (resolveExpr family of target.bindOperand (.constant value)).runOn ctx =
      (.ok (.constant bound), ctx') :=
    Compile.runOn_bind_eq_ok_iff.mpr ⟨bound, ctx', hrun, rfl⟩
  exact Compile.runOn_bind_eq_ok_iff.mpr ⟨.constant bound, ctx', hexpr, rfl⟩

end DocExpr
