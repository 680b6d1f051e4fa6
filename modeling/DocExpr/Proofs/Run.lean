import DocExpr.Proofs.Binding
import DocExpr.Proofs.Except

/-!
# Runs of computations

A computation goes through steps and may fail at any of them; what it bound before stays bound.  So
two things are said of it at once: what it does to the context however it ends, and what its result
is if it has one.  `Compile.Spec` says both, and its rules follow the way computations are put
together.

## Main definitions

* `Compile.Spec I computation Q`: from a context with `I`, the computation ends in one with `I` and
  goes upwards; a result stands in the relation `Q` to the two contexts

## Main results

* `Compile.Spec.bind`, `Compile.Spec.mapM`, `Compile.Spec.forM`: computations one after the other
* `Compile.Spec.bindName`, `Compile.Spec.bindValue`, `Compile.Spec.reserveName`,
  `Compile.Spec.reserveValue`: the steps
-/

namespace DocExpr

namespace Compile

variable {I : Context → Prop} {α β : Type}

/-- A result of two computations in a row is one of the second, after one of the first. -/
theorem runOn_bind_eq_ok_iff {first : Compile α} {next : α → Compile β} {ctx ctx' : Context}
    {b : β} : (first >>= next).runOn ctx = (.ok b, ctx') ↔
      ∃ a mid, first.runOn ctx = (.ok a, mid) ∧ (next a).runOn mid = (.ok b, ctx') := by
  rw [runOn_bind]
  rcases first.runOn ctx with ⟨_ | a, mid⟩ <;> simp

/-- A run of which something is known that only a result can have. -/
theorem exists_of_toOption {computation : Compile α} {ctx : Context} {f : α → β} {b : β}
    (h : (computation.runOn ctx).1.toOption.map f = some b) :
    ∃ a ctx', computation.runOn ctx = (.ok a, ctx') ∧ f a = b := by
  rcases hrun : computation.runOn ctx with ⟨e | a, ctx'⟩
  · rw [hrun] at h
    cases h
  · rw [hrun] at h
    exact ⟨a, ctx', rfl, Option.some.inj h⟩

theorem runFresh_eq_ok_iff {computation : Compile α} {alphabet : String} {a : α} :
    computation.runFresh alphabet = .ok a ↔
      ∃ ctx, computation.runOn (.fresh alphabet) = (.ok a, ctx) := by
  rw [runFresh]
  rcases computation.runOn (.fresh alphabet) with ⟨result, ctx⟩
  simp

/-- A step that yields nothing but a context. -/
theorem eq_ok_of_map_unit {after : Except ExpressionError Context} {a : Unit} {ctx : Context}
    (h : after.map ((), ·) = .ok (a, ctx)) : after = .ok ctx := by
  obtain ⟨ctx', hafter, heq⟩ := Except.map_eq_ok_iff.mp h
  cases heq
  exact hafter

/-- What a computation does to a context with `I`, and what its result is. -/
structure Spec (I : Context → Prop) (computation : Compile α)
    (Q : Context → α → Context → Prop) : Prop where
  keeps {ctx : Context} : I ctx → I (computation.runOn ctx).2
  grows {ctx : Context} : I ctx → ctx ≤ (computation.runOn ctx).2
  result {ctx ctx' : Context} {a : α} : I ctx → computation.runOn ctx = (.ok a, ctx') →
    Q ctx a ctx'

namespace Spec

variable {Q Q' : Context → α → Context → Prop}

/-- A weaker relation, given all that is known of the two contexts. -/
theorem imp {computation : Compile α} (h : Spec I computation Q)
    (hQ : ∀ {ctx a ctx'}, I ctx → I ctx' → ctx ≤ ctx' → Q ctx a ctx' → Q' ctx a ctx') :
    Spec I computation Q' where
  keeps := h.keeps
  grows := h.grows
  result {ctx ctx' a} hI hrun := by
    have hkeeps := h.keeps hI
    have hgrows := h.grows hI
    rw [hrun] at hkeeps hgrows
    exact hQ hI hkeeps hgrows (h.result hI hrun)

/-- What is known of one computation in two ways. -/
theorem and {computation : Compile α} (h : Spec I computation Q) (h' : Spec I computation Q') :
    Spec I computation fun ctx a ctx' => Q ctx a ctx' ∧ Q' ctx a ctx' :=
  ⟨h.keeps, h.grows, fun hI hrun => ⟨h.result hI hrun, h'.result hI hrun⟩⟩

theorem pure (a : α) : Spec I (pure a) fun ctx b ctx' => b = a ∧ ctx' = ctx where
  keeps hI := hI
  grows _ := le_rfl
  result _ hrun := by
    rw [runOn_pure] at hrun
    cases hrun
    exact ⟨rfl, rfl⟩

theorem ofExcept (result : Except ExpressionError α) :
    Spec I (ofExcept result) fun ctx a ctx' => result = .ok a ∧ ctx' = ctx where
  keeps hI := hI
  grows _ := le_rfl
  result _ hrun := by
    rw [runOn_ofExcept] at hrun
    cases hrun
    exact ⟨rfl, rfl⟩

theorem throw (e : ExpressionError) : Spec I (throw e : Compile α) fun _ _ _ => False where
  keeps hI := hI
  grows _ := le_rfl
  result _ hrun := by
    rw [runOn_throw] at hrun
    cases hrun

theorem get : Spec I (get : Compile Context) fun ctx a ctx' => a = ctx ∧ ctx' = ctx where
  keeps hI := hI
  grows _ := le_rfl
  result _ hrun := by
    cases hrun
    exact ⟨rfl, rfl⟩

theorem step {f : Context → Except ExpressionError (α × Context)}
    (h : ∀ {ctx a ctx'}, I ctx → f ctx = .ok (a, ctx') → I ctx' ∧ ctx ≤ ctx' ∧ Q ctx a ctx') :
    Spec I (Compile.step f) Q := by
  -- A step ends with a result and a new context, or fails and leaves the old one.
  have hrun : ∀ ctx,
      (∃ a ctx', f ctx = .ok (a, ctx') ∧ (Compile.step f).runOn ctx = (.ok a, ctx')) ∨
      ∃ e, (Compile.step f).runOn ctx = (.error e, ctx) := by
    intro ctx
    rw [runOn_step]
    cases hf : f ctx with
    | error e => exact .inr ⟨e, rfl⟩
    | ok pair => exact .inl ⟨pair.1, pair.2, rfl, rfl⟩
  refine ⟨fun {ctx} hI => ?_, fun {ctx} hI => ?_, fun {ctx ctx' a} hI hok => ?_⟩
  · rcases hrun ctx with ⟨a, ctx', hf, heq⟩ | ⟨e, heq⟩ <;> rw [heq]
    · exact (h hI hf).1
    · exact hI
  · rcases hrun ctx with ⟨a, ctx', hf, heq⟩ | ⟨e, heq⟩
    · rw [heq]
      exact (h hI hf).2.1
    · rw [heq]
  · rcases hrun ctx with ⟨a, ctx', hf, heq⟩ | ⟨e, heq⟩ <;> rw [heq] at hok <;> cases hok
    exact (h hI hf).2.2

/-- One computation after another: the second starts where the first ended, and only with what the
first may yield. -/
theorem bind {first : Compile α} {next : α → Compile β} {T : α → Context → β → Context → Prop}
    (hfirst : Spec I first Q) (hnext : ∀ a, (∃ ctx mid, Q ctx a mid) → Spec I (next a) (T a)) :
    Spec I (first >>= next) fun ctx b ctx' =>
      ∃ a mid, Q ctx a mid ∧ I mid ∧ ctx ≤ mid ∧ mid ≤ ctx' ∧ T a mid b ctx' := by
  refine ⟨fun {ctx} hI => ?_, fun {ctx} hI => ?_, fun {ctx ctx' b} hI hrun => ?_⟩
  · have hkeeps := hfirst.keeps hI
    rw [runOn_bind]
    -- What the first computation bound before it failed stays bound.
    split
    · next a mid heq =>
      rw [heq] at hkeeps
      exact (hnext a ⟨ctx, mid, hfirst.result hI heq⟩).keeps hkeeps
    · next e mid heq => rwa [heq] at hkeeps
  · have hkeeps := hfirst.keeps hI
    have hgrows := hfirst.grows hI
    rw [runOn_bind]
    split
    · next a mid heq =>
      rw [heq] at hkeeps hgrows
      exact le_trans hgrows ((hnext a ⟨ctx, mid, hfirst.result hI heq⟩).grows hkeeps)
    · next e mid heq => rwa [heq] at hgrows
  · have hkeeps := hfirst.keeps hI
    have hgrows := hfirst.grows hI
    rw [runOn_bind] at hrun
    split at hrun
    · next a mid heq =>
      rw [heq] at hkeeps hgrows
      have hQ := hfirst.result hI heq
      have hsecond := hnext a ⟨ctx, mid, hQ⟩
      have hup := hsecond.grows hkeeps
      rw [hrun] at hup
      exact ⟨a, mid, hQ, hkeeps, hgrows, hup, hsecond.result hkeeps hrun⟩
    · cases hrun

/-- Nothing comes after a failure. -/
theorem throw_bind (e : ExpressionError) (next : β → Compile α) :
    Spec I (MonadExcept.throw e >>= next) Q := by
  have hnext : ∀ b, (∃ ctx mid : Context, False) → Spec I (next b) fun _ _ _ => False := by
    rintro b ⟨-, -, h⟩
    exact h.elim
  refine ((throw e).bind hnext).imp ?_
  rintro ctx a ctx' - - - ⟨b, mid, h, -⟩
  exact h.elim

theorem ite {c : Prop} [Decidable c] {yes no : Compile α} (hyes : c → Spec I yes Q)
    (hno : ¬c → Spec I no Q) : Spec I (if c then yes else no) Q := by
  split
  · next h => exact hyes h
  · next h => exact hno h

/-- A relation that goes through from one result to the next goes through a list. -/
theorem mapM {f : α → Compile β} {T : α → Context → β → Context → Prop}
    {P : Context → List α → List β → Context → Prop} (nil : ∀ ctx, P ctx [] [] ctx)
    (cons : ∀ {ctx mid ctx' a b l bs}, T a ctx b mid → ctx ≤ mid → mid ≤ ctx' →
      P mid l bs ctx' → P ctx (a :: l) (b :: bs) ctx')
    (l : List α) (hf : ∀ a ∈ l, Spec I (f a) (T a)) :
    Spec I (l.mapM f) fun ctx bs ctx' => P ctx l bs ctx' := by
  induction l with
  | nil =>
    rw [List.mapM_nil]
    refine (pure []).imp fun _ _ _ h => ?_
    rw [h.1, h.2]
    exact nil _
  | cons a l ih =>
    rw [List.mapM_cons]
    have hrest := ih fun x hx => hf x (List.mem_cons_of_mem _ hx)
    refine ((hf a (by simp)).bind fun b _ => hrest.bind fun bs _ => pure (b :: bs)).imp ?_
    rintro ctx _ _ - - - ⟨b, mid, hT, -, hle, -, bs, last, hP, -, hle', -, rfl, rfl⟩
    exact cons hT hle hle' hP

/-- What each step achieves, and what is not taken back later, holds of all steps in the end. -/
theorem forM {f : α → Compile Unit} (l : List α) (R : α → Context → Prop)
    (mono : ∀ {a ctx ctx'}, ctx ≤ ctx' → R a ctx → R a ctx')
    (hf : ∀ a ∈ l, Spec I (f a) fun _ _ ctx' => R a ctx') :
    Spec I (l.forM f) fun _ _ ctx' => ∀ a ∈ l, R a ctx' := by
  induction l with
  | nil => exact (pure ()).imp fun _ _ _ _ => by simp
  | cons a l ih =>
    have hrest := ih fun x hx => hf x (List.mem_cons_of_mem _ hx)
    refine ((hf a (by simp)).bind fun _ _ => hrest).imp ?_
    rintro ctx _ ctx' - - - ⟨-, mid, ha, -, -, hle, hall⟩
    exact List.forall_mem_cons.mpr ⟨mono hle ha, hall⟩

/-- What a request sees of a computation: its result on a fresh context. -/
theorem runFresh {computation : Compile α} (h : Spec I computation Q) {alphabet : String}
    (hI : I (.fresh alphabet)) {a : α} (hrun : computation.runFresh alphabet = .ok a) :
    ∃ ctx', I ctx' ∧ Q (.fresh alphabet) a ctx' := by
  have hkeeps := h.keeps hI
  obtain ⟨ctx', hrun⟩ := runFresh_eq_ok_iff.mp hrun
  rw [hrun] at hkeeps
  exact ⟨ctx', hkeeps, h.result hI hrun⟩

/-! ## The steps -/

variable (hI : Context.Stable I)

include hI

/-- A field that is bound has the placeholder that was yielded. -/
theorem bindName {field : String} {code : Option String} (hcode : ∀ token ∈ code, isToken token) :
    Spec I (Compile.bindName field code) fun _ placeholder ctx' =>
      ctx'.names.get? field = some placeholder := by
  refine step fun {ctx placeholder ctx'} h hrun => ⟨hI.bindName h hcode hrun,
    Context.le_bindName hrun, ?_⟩
  rcases Context.bindName_cases hrun with ⟨hbound, rfl⟩ | ⟨-, -, -, position, rfl⟩
  · exact hbound
  · show (ctx.names.insert field placeholder).get? field = some placeholder
    rw [Dict.get?_insert, if_pos rfl]

/-- A value that is bound has a placeholder that was free before. -/
theorem bindValue (value : AttributeValue) :
    Spec I (Compile.bindValue value) fun ctx bound ctx' =>
      bound.value = value ∧ bound.placeholder ∉ ctx.values.keys ∧
        ctx'.values.get? bound.placeholder = some value := by
  refine step fun {ctx bound ctx'} h hrun => ⟨hI.bindValue h hrun, Context.le_bindValue hrun, ?_⟩
  obtain ⟨hvalue, hfree, -, position, rfl⟩ := Context.bindValue_cases hrun
  refine ⟨hvalue, hfree, ?_⟩
  show (ctx.values.insert bound.placeholder value).get? bound.placeholder = some value
  rw [Dict.get?_insert, if_pos rfl]

omit hI

variable {text : Fragment} (htext : Context.Admits I text)

include htext

/-- A placeholder that is reserved has the field that was asked for. -/
theorem reserveName {placeholder : String} (hp : placeholder ∈ text.names.keys) (field : String) :
    Spec I (Compile.reserveName placeholder field) fun _ _ ctx' =>
      ctx'.owners.get? placeholder = some field := by
  refine step fun {ctx a ctx'} h hrun => ?_
  have hreserve := eq_ok_of_map_unit hrun
  exact ⟨htext.reserveName h hp hreserve, Context.le_reserveName hreserve,
    Context.owners_reserveName hreserve⟩

/-- A placeholder that is reserved has the value that was asked for, or one that equals it. -/
theorem reserveValue {placeholder : String} (hp : placeholder ∈ text.values.keys)
    (value : AttributeValue) :
    Spec I (Compile.reserveValue placeholder value) fun _ _ ctx' =>
      value.same value = true →
        ∃ bound, ctx'.values.get? placeholder = some bound ∧ bound.same value = true := by
  refine step fun {ctx a ctx'} h hrun => ?_
  have hreserve := eq_ok_of_map_unit hrun
  exact ⟨htext.reserveValue h hp hreserve, Context.le_reserveValue hreserve,
    Context.values_reserveValue hreserve⟩

end Spec

end Compile

end DocExpr
