import DocExpr.Proofs.Run

/-!
# Computations that go alike

A field may have several placeholders, and which of them it goes by is told by the first one alone.
Contexts in which everything else is the same are alike: the same names and values are bound or
refused there, to the same placeholders unless a field goes by different ones, and codes are minted
in step.  So a computation goes alike from such contexts.

Reservations leave contexts that are alike in whatever order they are made.  Two of them commute but
for the placeholders of one field, of which the field goes by the first; by steps of two, so does
any number.

## Main definitions

* `SamePlaceholder`: a placeholder, or two that a field may go by
* `Context.Alike`: contexts that differ in which of its placeholders a field goes by
* `Compile.Simulates`: from contexts that are alike, what one computation does the other does too

## Main results

* `Context.Alike.bindName` and its like: each step keeps contexts alike
* `Context.reserveName_comm`, `Context.reserveValue_comm`: reservations commute
* `Compile.Simulates.forM_perm`: steps that commute, in another order
* `Compile.forM_reserveName_simulates`, `Compile.forM_reserveValue_simulates`: the entries of a
  dictionary are reserved in any order
-/

namespace DocExpr

-- `A placeholder field`: the field may go by this placeholder where it goes by another one.
variable {A : String → String → Prop}

/-! ## Contexts that are alike -/

/-- The same placeholder, or two that a field may go by. -/
def SamePlaceholder (A : String → String → Prop) (field p p' : String) : Prop :=
  p = p' ∨ A p field ∧ A p' field

namespace SamePlaceholder

variable {field p p' p'' : String}

theorem trans (h : SamePlaceholder A field p p') (h' : SamePlaceholder A field p' p'') :
    SamePlaceholder A field p p'' := by
  rcases h with rfl | ⟨hp, hp'⟩
  · exact h'
  · rcases h' with rfl | ⟨-, hp''⟩
    · exact .inr ⟨hp, hp'⟩
    · exact .inr ⟨hp, hp''⟩

end SamePlaceholder

namespace Context

variable {ctx ctx' ctx'' mid mid' : Context}

/-- Contexts that have bound the same, save that a field may go by different placeholders. -/
structure Alike (A : String → String → Prop) (ctx ctx' : Context) : Prop where
  symbols : ctx'.symbols = ctx.symbols
  position : ctx'.position = ctx.position
  names : ∀ field, Option.Rel (SamePlaceholder A field) (ctx.names.get? field)
    (ctx'.names.get? field)
  owners : ∀ placeholder, ctx'.owners.get? placeholder = ctx.owners.get? placeholder
  values : ∀ placeholder, ctx'.values.get? placeholder = ctx.values.get? placeholder

namespace Alike

theorem refl (ctx : Context) : ctx.Alike A ctx where
  symbols := rfl
  position := rfl
  names field := by
    cases ctx.names.get? field with
    | none => exact .none
    | some p => exact .some (.inl rfl)
  owners _ := rfl
  values _ := rfl

theorem trans (h : ctx.Alike A ctx') (h' : ctx'.Alike A ctx'') : ctx.Alike A ctx'' where
  symbols := h'.symbols.trans h.symbols
  position := h'.position.trans h.position
  names field := by
    have hfield := h.names field
    have hfield' := h'.names field
    generalize ctx.names.get? field = p, ctx'.names.get? field = p',
      ctx''.names.get? field = p'' at hfield hfield'
    cases hfield with
    | none => exact hfield'
    | some hp =>
      cases hfield' with
      | some hp' => exact .some (hp.trans hp')
  owners placeholder := (h'.owners placeholder).trans (h.owners placeholder)
  values placeholder := (h'.values placeholder).trans (h.values placeholder)

/-- Both contexts mint the same placeholder. -/
theorem mint {α : Type} {d d' : Dict α} (h : ctx.Alike A ctx')
    (hd : ∀ key, d'.get? key = d.get? key) {placeholder : String → String} {p : String}
    (hrun : ctx.mint placeholder d = .ok (p, mid)) :
    ∃ position, mid = { ctx with position } ∧
      ctx'.mint placeholder d' = .ok (p, { ctx' with position }) := by
  have hcontains : ∀ key, d'.contains key = d.contains key := fun key => by
    rw [Dict.contains, Dict.contains, hd]
  rw [Context.mint] at hrun ⊢
  rw [h.symbols]
  split at hrun
  · cases hrun
  · cases hrun
    refine ⟨_, rfl, ?_⟩
    simp only [hcontains, Dict.size_eq_of_get?_eq hd, h.position]

/-- A field is given the same placeholder in both contexts. -/
theorem assign (h : ctx.Alike A ctx') (placeholder field : String) :
    (ctx.assign placeholder field).Alike A (ctx'.assign placeholder field) where
  symbols := h.symbols
  position := h.position
  names other := by
    simp only [Context.assign, Dict.get?_insert]
    split
    · exact .some (.inl rfl)
    · exact h.names other
  owners other := by
    simp only [Context.assign, Dict.get?_insert, h.owners]
  values := h.values

/-- **A field is bound to placeholders that it may go by.** -/
theorem bindName (h : ctx.Alike A ctx') {field p : String} {code : Option String}
    (hrun : ctx.bindName field code = .ok (p, mid)) :
    ∃ p' mid', ctx'.bindName field code = .ok (p', mid') ∧ SamePlaceholder A field p p' ∧
      mid.Alike A mid' := by
  have hfield := h.names field
  have hcontains : ∀ placeholder, ctx'.owners.contains placeholder =
      ctx.owners.contains placeholder := fun placeholder => by
    rw [Dict.contains, Dict.contains, h.owners]
  rw [Context.bindName] at hrun ⊢
  generalize ctx.names.get? field = bound, ctx'.names.get? field = bound' at hfield hrun
  cases hfield with
  | some hp =>
    cases hrun
    exact ⟨_, ctx', rfl, hp, h⟩
  | none =>
    simp only [hcontains] at hrun ⊢
    split at hrun
    · cases hrun
      exact ⟨_, _, rfl, .inl rfl, h.assign ..⟩
    · split at hrun
      · cases hrun
      · next hmint =>
        obtain ⟨position, rfl, hmint'⟩ := h.mint h.owners hmint
        cases hrun
        rw [hmint']
        have hmoved : Alike A { ctx with position } { ctx' with position } :=
          ⟨h.symbols, rfl, h.names, h.owners, h.values⟩
        exact ⟨_, _, rfl, .inl rfl, hmoved.assign p field⟩

/-- **A value is bound to the same placeholder.** -/
theorem bindValue (h : ctx.Alike A ctx') {value : AttributeValue} {bound : BoundValue}
    (hrun : ctx.bindValue value = .ok (bound, mid)) :
    ∃ mid', ctx'.bindValue value = .ok (bound, mid') ∧ mid.Alike A mid' := by
  rw [Context.bindValue] at hrun ⊢
  split at hrun
  · cases hrun
  · split at hrun
    · cases hrun
    · next hmint =>
      obtain ⟨position, rfl, hmint'⟩ := h.mint h.values hmint
      cases hrun
      rw [hmint']
      refine ⟨_, rfl, h.symbols, rfl, h.names, h.owners, fun other => ?_⟩
      simp only [Dict.get?_insert, h.values]

end Alike

/-! ### Reservations -/

/-- A placeholder is reserved in both contexts. -/
theorem Alike.reserveName (h : ctx.Alike A ctx') {placeholder field : String}
    (hrun : ctx.reserveName placeholder field = .ok mid) :
    ∃ mid', ctx'.reserveName placeholder field = .ok mid' ∧ mid.Alike A mid' := by
  simp only [reserveName_eq_ok_iff, h.owners] at hrun ⊢
  rcases hrun with ⟨howner, rfl⟩ | ⟨hfree, rfl⟩
  · exact ⟨ctx', .inl ⟨howner, rfl⟩, h⟩
  · refine ⟨_, .inr ⟨hfree, rfl⟩, h.symbols, h.position, fun other => ?_, fun other => ?_, h.values⟩
    · have hother := h.names other
      rw [names_reserve, names_reserve]
      generalize ctx.names.get? other = p, ctx'.names.get? other = p' at hother
      cases hother with
      | some hp => exact .some hp
      | none =>
        split
        · exact .some (.inl rfl)
        · exact .none
    · rw [owners_reserve, owners_reserve, h.owners]

/-- Two placeholders that are both free, in either order. -/
theorem alike_reserve_reserve {p q field other : String} (hne : p ≠ q)
    (hA : field = other → A p field ∧ A q other) :
    ((ctx.reserve p field).reserve q other).Alike A ((ctx.reserve q other).reserve p field) where
  symbols := rfl
  position := rfl
  names name := by
    simp only [names_reserve]
    cases ctx.names.get? name with
    | some bound => exact .some (.inl rfl)
    | none =>
      by_cases hfield : field = name <;> by_cases hother : other = name
      · -- The field goes by the placeholder that comes first.
        obtain ⟨hp, hq⟩ := hA (hfield.trans hother.symm)
        subst hfield hother
        simpa using Option.Rel.some (.inr ⟨hp, hq⟩)
      · simpa [hfield, hother] using Option.Rel.some (.inl rfl)
      · simpa [hfield, hother] using Option.Rel.some (.inl rfl)
      · simp [hfield, hother]
  owners placeholder := by
    simp only [owners_reserve]
    split
    · next heq => rw [if_neg (fun h => hne (heq.trans h.symm))]
    · rfl
  values _ := rfl

/-- **Reservations of names commute**, up to which of two placeholders the field goes by. -/
theorem reserveName_comm {p q field other : String}
    (hA : field = other → p ≠ q → A p field ∧ A q other) {last : Context}
    (hfirst : ctx.reserveName p field = .ok mid) (hsecond : mid.reserveName q other = .ok last) :
    ∃ mid' last', ctx.reserveName q other = .ok mid' ∧ mid'.reserveName p field = .ok last' ∧
      last.Alike A last' := by
  rw [reserveName_eq_ok_iff] at hfirst hsecond
  rcases hfirst with ⟨howned, rfl⟩ | ⟨hfree, rfl⟩
  · rcases hsecond with ⟨howned', rfl⟩ | ⟨hfree', rfl⟩
    · exact ⟨_, _, reserveName_eq_ok_iff.mpr (.inl ⟨howned', rfl⟩),
        reserveName_eq_ok_iff.mpr (.inl ⟨howned, rfl⟩), .refl _⟩
    · have hne : q ≠ p := by
        rintro rfl
        rw [howned] at hfree'
        cases hfree'
      refine ⟨_, _, reserveName_eq_ok_iff.mpr (.inr ⟨hfree', rfl⟩),
        reserveName_eq_ok_iff.mpr (.inl ⟨?_, rfl⟩), .refl _⟩
      rw [owners_reserve, if_neg hne, howned]
  · rw [owners_reserve] at hsecond
    by_cases hpq : p = q
    · -- One placeholder, and so one field.
      subst hpq
      simp only [if_true, Option.some.injEq, reduceCtorEq, false_and, or_false] at hsecond
      obtain ⟨rfl, rfl⟩ := hsecond
      refine ⟨_, _, reserveName_eq_ok_iff.mpr (.inr ⟨hfree, rfl⟩),
        reserveName_eq_ok_iff.mpr (.inl ⟨?_, rfl⟩), .refl _⟩
      rw [owners_reserve, if_pos rfl]
    · rw [if_neg hpq] at hsecond
      rcases hsecond with ⟨howned', rfl⟩ | ⟨hfree', rfl⟩
      · exact ⟨_, _, reserveName_eq_ok_iff.mpr (.inl ⟨howned', rfl⟩),
          reserveName_eq_ok_iff.mpr (.inr ⟨hfree, rfl⟩), .refl _⟩
      · refine ⟨_, _, reserveName_eq_ok_iff.mpr (.inr ⟨hfree', rfl⟩),
          reserveName_eq_ok_iff.mpr (.inr ⟨?_, rfl⟩), alike_reserve_reserve hpq fun h => hA h hpq⟩
        rw [owners_reserve, if_neg (Ne.symm hpq), hfree]

/-- A value is reserved in both contexts. -/
theorem Alike.reserveValue (h : ctx.Alike A ctx') {placeholder : String} {value : AttributeValue}
    (hrun : ctx.reserveValue placeholder value = .ok mid) :
    ∃ mid', ctx'.reserveValue placeholder value = .ok mid' ∧ mid.Alike A mid' := by
  simp only [reserveValue_eq_ok_iff, h.values] at hrun ⊢
  obtain ⟨hfinite, ⟨bound, hbound, hsame, rfl⟩ | ⟨hfree, rfl⟩⟩ := hrun
  · exact ⟨ctx', ⟨hfinite, .inl ⟨bound, hbound, hsame, rfl⟩⟩, h⟩
  · refine ⟨_, ⟨hfinite, .inr ⟨hfree, rfl⟩⟩, h.symbols, h.position, h.names, h.owners,
      fun other => ?_⟩
    simp only [Dict.get?_insert, h.values]

/-- **Reservations of values commute.** -/
theorem reserveValue_comm {p q : String} {v w : AttributeValue} (hne : p ≠ q) {last : Context}
    (hfirst : ctx.reserveValue p v = .ok mid) (hsecond : mid.reserveValue q w = .ok last) :
    ∃ mid' last', ctx.reserveValue q w = .ok mid' ∧ mid'.reserveValue p v = .ok last' ∧
      last.Alike A last' := by
  rw [reserveValue_eq_ok_iff] at hfirst hsecond
  obtain ⟨hv, hfirst⟩ := hfirst
  obtain ⟨hw, hsecond⟩ := hsecond
  -- What one of them finds does not depend on the other.
  have hother : ∀ value, (ctx.values.insert p value).get? q = ctx.values.get? q := fun value => by
    rw [Dict.get?_insert, if_neg hne]
  have hother' : ∀ value, (ctx.values.insert q value).get? p = ctx.values.get? p := fun value => by
    rw [Dict.get?_insert, if_neg (Ne.symm hne)]
  rcases hfirst with ⟨bound, hbound, hsame, rfl⟩ | ⟨hfree, rfl⟩
  · rcases hsecond with ⟨bound', hbound', hsame', rfl⟩ | ⟨hfree', rfl⟩
    · exact ⟨_, _, reserveValue_eq_ok_iff.mpr ⟨hw, .inl ⟨bound', hbound', hsame', rfl⟩⟩,
        reserveValue_eq_ok_iff.mpr ⟨hv, .inl ⟨bound, hbound, hsame, rfl⟩⟩, .refl _⟩
    · exact ⟨_, _, reserveValue_eq_ok_iff.mpr ⟨hw, .inr ⟨hfree', rfl⟩⟩,
        reserveValue_eq_ok_iff.mpr ⟨hv, .inl ⟨bound, (hother' w).trans hbound, hsame, rfl⟩⟩,
        .refl _⟩
  · rw [hother] at hsecond
    rcases hsecond with ⟨bound', hbound', hsame', rfl⟩ | ⟨hfree', rfl⟩
    · exact ⟨_, _, reserveValue_eq_ok_iff.mpr ⟨hw, .inl ⟨bound', hbound', hsame', rfl⟩⟩,
        reserveValue_eq_ok_iff.mpr ⟨hv, .inr ⟨hfree, rfl⟩⟩, .refl _⟩
    · refine ⟨_, _, reserveValue_eq_ok_iff.mpr ⟨hw, .inr ⟨hfree', rfl⟩⟩,
        reserveValue_eq_ok_iff.mpr ⟨hv, .inr ⟨(hother' w).trans hfree, rfl⟩⟩, rfl, rfl,
        (Alike.refl ctx).names, fun _ => rfl, fun placeholder => ?_⟩
      simp only [Dict.get?_insert]
      split
      · next heq => rw [if_neg fun h => hne (heq.trans h.symm)]
      · rfl

end Context

/-! ## Computations that go alike -/

namespace Compile

variable {α β γ δ : Type} {R : α → β → Prop} {T : γ → δ → Prop}

/-- From contexts that are alike, if the first computation ends with a result then so does the
second, with a related result and in a context that is alike. -/
def Simulates (A : String → String → Prop) (R : α → β → Prop) (first : Compile α)
    (second : Compile β) : Prop :=
  ∀ (ctx ctx' mid : Context) (a : α), ctx.Alike A ctx' → first.runOn ctx = (.ok a, mid) →
    ∃ b mid', second.runOn ctx' = (.ok b, mid') ∧ R a b ∧ mid.Alike A mid'

namespace Simulates

theorem pure {a : α} {b : β} (h : R a b) : Simulates A R (Pure.pure a) (Pure.pure b) := by
  intro ctx ctx' mid a' halike hrun
  cases hrun
  exact ⟨b, ctx', rfl, h, halike⟩

theorem ofExcept {result : Except ExpressionError α} {result' : Except ExpressionError β}
    (h : ∀ a, result = .ok a → ∃ b, result' = .ok b ∧ R a b) :
    Simulates A R (Compile.ofExcept result) (Compile.ofExcept result') := by
  intro ctx ctx' mid a halike hrun
  rw [runOn_ofExcept] at hrun
  obtain ⟨hresult, rfl⟩ := Prod.mk.inj hrun
  obtain ⟨b, rfl, hab⟩ := h a hresult
  exact ⟨b, ctx', rfl, hab, halike⟩

/-- A computation that fails need not be followed. -/
theorem throw (e : ExpressionError) {second : Compile β} :
    Simulates A R (MonadExcept.throw e : Compile α) second := by
  intro ctx ctx' mid a halike hrun
  cases hrun

theorem throw_bind (e : ExpressionError) (next : γ → Compile α) {second : Compile β} :
    Simulates A R (MonadExcept.throw e >>= next) second := by
  intro ctx ctx' mid a halike hrun
  cases hrun

theorem get : Simulates A (Context.Alike A) (MonadState.get : Compile Context)
    MonadState.get := by
  intro ctx ctx' mid a halike hrun
  cases hrun
  exact ⟨ctx', ctx', rfl, halike, halike⟩

theorem bind {first : Compile α} {second : Compile β} {next : α → Compile γ}
    {next' : β → Compile δ} (h : Simulates A R first second)
    (hnext : ∀ a b, R a b → Simulates A T (next a) (next' b)) :
    Simulates A T (first >>= next) (second >>= next') := by
  intro ctx ctx' last c halike hrun
  obtain ⟨a, mid, hfirst, hrun⟩ := runOn_bind_eq_ok_iff.mp hrun
  obtain ⟨b, mid', hsecond, hab, hmid⟩ := h ctx ctx' mid a halike hfirst
  obtain ⟨d, last', hrun', hcd, hlast⟩ := hnext a b hab mid mid' last c hmid hrun
  exact ⟨d, last', runOn_bind_eq_ok_iff.mpr ⟨b, mid', hsecond, hrun'⟩, hcd, hlast⟩

theorem ite {c : Prop} [Decidable c] {yes no : Compile α} {yes' no' : Compile β}
    (hyes : Simulates A R yes yes') (hno : Simulates A R no no') :
    Simulates A R (if c then yes else no) (if c then yes' else no') := by
  split
  · exact hyes
  · exact hno

theorem step {f : Context → Except ExpressionError (α × Context)}
    {g : Context → Except ExpressionError (β × Context)}
    (h : ∀ ctx ctx' mid a, ctx.Alike A ctx' → f ctx = .ok (a, mid) →
      ∃ b mid', g ctx' = .ok (b, mid') ∧ R a b ∧ mid.Alike A mid') :
    Simulates A R (Compile.step f) (Compile.step g) := by
  intro ctx ctx' mid a halike hrun
  rw [runOn_step] at hrun
  split at hrun
  · next hf =>
    cases hrun
    obtain ⟨b, mid', hg, hab, hmid⟩ := h ctx ctx' mid a halike hf
    exact ⟨b, mid', by rw [runOn_step, hg], hab, hmid⟩
  · cases hrun

theorem mapM {f : γ → Compile α} {g : γ → Compile α} (l : List γ)
    (hf : ∀ c ∈ l, Simulates A Eq (f c) (g c)) : Simulates A Eq (l.mapM f) (l.mapM g) := by
  induction l with
  | nil =>
    rw [List.mapM_nil, List.mapM_nil]
    exact pure rfl
  | cons c l ih =>
    obtain ⟨hc, hl⟩ := List.forall_mem_cons.mp hf
    rw [List.mapM_cons, List.mapM_cons]
    refine hc.bind fun a _ heq => (ih hl).bind fun as _ heqs => ?_
    subst heq heqs
    exact pure rfl

theorem forM {f : α → Compile Unit} (l : List α) (hf : ∀ a ∈ l, Simulates A Eq (f a) (f a)) :
    Simulates A Eq (l.forM f) (l.forM f) := by
  induction l with
  | nil => exact pure rfl
  | cons a l ih =>
    obtain ⟨ha, hl⟩ := List.forall_mem_cons.mp hf
    exact ha.bind fun _ _ _ => ih hl

/-- A computation that simulates itself simulates another one if it does so from each context. -/
theorem of_self {first second : Compile α} (hself : Simulates A Eq second second)
    (h : ∀ ctx mid a, first.runOn ctx = (.ok a, mid) →
      ∃ mid', second.runOn ctx = (.ok a, mid') ∧ mid.Alike A mid') :
    Simulates A Eq first second := by
  intro ctx ctx' mid a halike hrun
  obtain ⟨mid', hrun', hmid⟩ := h ctx mid a hrun
  obtain ⟨_, mid'', hrun'', rfl, hmid'⟩ := hself ctx ctx' mid' a halike hrun'
  exact ⟨a, mid'', hrun'', rfl, hmid.trans hmid'⟩

theorem trans {first second third : Compile α} (h : Simulates A Eq first second)
    (h' : Simulates A Eq second third) : Simulates A Eq first third := by
  intro ctx ctx' mid a halike hrun
  obtain ⟨_, mid', hrun', rfl, hmid⟩ := h ctx ctx mid a (.refl ctx) hrun
  obtain ⟨_, mid'', hrun'', rfl, hmid'⟩ := h' ctx ctx' mid' a halike hrun'
  exact ⟨a, mid'', hrun'', rfl, hmid.trans hmid'⟩

/-- **Steps that commute can be taken in any order.** -/
theorem forM_perm {f : α → Compile Unit} {l l' : List α} (hperm : l.Perm l') (hnodup : l.Nodup)
    (hself : ∀ a ∈ l, Simulates A Eq (f a) (f a))
    (hcomm : ∀ a ∈ l, ∀ b ∈ l, a ≠ b →
      Simulates A Eq (f a >>= fun _ => f b) (f b >>= fun _ => f a)) :
    Simulates A Eq (l.forM f) (l'.forM f) := by
  induction hperm with
  | nil => exact pure rfl
  | cons a _ ih =>
    obtain ⟨ha, hl⟩ := List.forall_mem_cons.mp hself
    refine ha.bind fun _ _ _ => ih (List.nodup_cons.mp hnodup).2 hl fun b hb c hc => ?_
    exact hcomm b (List.mem_cons_of_mem _ hb) c (List.mem_cons_of_mem _ hc)
  | swap a b l =>
    obtain ⟨hb, ha⟩ := List.forall_mem_cons.mp hself
    obtain ⟨ha, hl⟩ := List.forall_mem_cons.mp ha
    have hne : b ≠ a := fun heq => (List.nodup_cons.mp hnodup).1 (heq ▸ List.mem_cons_self)
    have hswap := hcomm b List.mem_cons_self a (by simp) hne
    have hrest : ∀ x y : α, (x :: y :: l).forM f =
        (f x >>= fun _ => f y) >>= fun _ => l.forM f := fun x y => by
      rw [bind_assoc]
      rfl
    rw [hrest, hrest]
    exact hswap.bind fun _ _ _ => forM l hl
  | trans hfirst _ ih ih' =>
    refine (ih hnodup hself hcomm).trans (ih' (hfirst.nodup_iff.mp hnodup) ?_ ?_)
    · exact fun a ha => hself a (hfirst.mem_iff.mpr ha)
    · exact fun a ha b hb => hcomm a (hfirst.mem_iff.mpr ha) b (hfirst.mem_iff.mpr hb)

end Simulates

/-! ### Reservations -/

theorem runOn_reserveName_eq_ok_iff {placeholder field : String} {ctx mid : Context} {a : Unit} :
    (reserveName placeholder field).runOn ctx = (.ok a, mid) ↔
      ctx.reserveName placeholder field = .ok mid := by
  rw [reserveName, runOn_step]
  cases ctx.reserveName placeholder field <;> simp [Except.map]

theorem runOn_reserveValue_eq_ok_iff {placeholder : String} {value : AttributeValue}
    {ctx mid : Context} {a : Unit} :
    (reserveValue placeholder value).runOn ctx = (.ok a, mid) ↔
      ctx.reserveValue placeholder value = .ok mid := by
  rw [reserveValue, runOn_step]
  cases ctx.reserveValue placeholder value <;> simp [Except.map]

theorem reserveName_simulates (placeholder field : String) :
    Simulates A Eq (reserveName placeholder field) (reserveName placeholder field) := by
  intro ctx ctx' mid a halike hrun
  obtain ⟨mid', hrun', hmid⟩ := halike.reserveName (runOn_reserveName_eq_ok_iff.mp hrun)
  exact ⟨a, mid', runOn_reserveName_eq_ok_iff.mpr hrun', rfl, hmid⟩

theorem reserveValue_simulates (placeholder : String) (value : AttributeValue) :
    Simulates A Eq (reserveValue placeholder value) (reserveValue placeholder value) := by
  intro ctx ctx' mid a halike hrun
  obtain ⟨mid', hrun', hmid⟩ := halike.reserveValue (runOn_reserveValue_eq_ok_iff.mp hrun)
  exact ⟨a, mid', runOn_reserveValue_eq_ok_iff.mpr hrun', rfl, hmid⟩

/-- **Names are reserved in any order**, if each field may go by all placeholders that it is given
when these are several. -/
theorem forM_reserveName_simulates {names names' : Dict String}
    (hperm : names.entries.Perm names'.entries)
    (hA : ∀ p q field, names.get? p = some field → names.get? q = some field → p ≠ q → A p field) :
    Simulates A Eq (names.entries.forM fun (placeholder, field) => reserveName placeholder field)
      (names'.entries.forM fun (placeholder, field) => reserveName placeholder field) := by
  refine .forM_perm hperm names.nodup_entries
    (fun entry _ => reserveName_simulates entry.1 entry.2) ?_
  rintro ⟨p, field⟩ hp ⟨q, other⟩ hq hne
  have hpq : p ≠ q := Dict.key_ne_of_mem hp hq hne
  refine .of_self ((reserveName_simulates q other).bind fun _ _ _ =>
    reserveName_simulates p field) ?_
  intro ctx last a hrun
  obtain ⟨_, mid, hfirst, hsecond⟩ := runOn_bind_eq_ok_iff.mp hrun
  have hlisted : field = other → p ≠ q → A p field ∧ A q other := by
    rintro rfl -
    have hget := (names.get?_eq_some_iff ..).mpr hp
    have hget' := (names.get?_eq_some_iff ..).mpr hq
    exact ⟨hA p q field hget hget' hpq, hA q p field hget' hget hpq.symm⟩
  obtain ⟨mid', last', hfirst', hsecond', hlast⟩ := Context.reserveName_comm hlisted
    (runOn_reserveName_eq_ok_iff.mp hfirst) (runOn_reserveName_eq_ok_iff.mp hsecond)
  exact ⟨last', runOn_bind_eq_ok_iff.mpr ⟨a, mid', runOn_reserveName_eq_ok_iff.mpr hfirst',
    runOn_reserveName_eq_ok_iff.mpr hsecond'⟩, hlast⟩

/-- **Values are reserved in any order.** -/
theorem forM_reserveValue_simulates {values values' : Dict AttributeValue}
    (hperm : values.entries.Perm values'.entries) :
    Simulates A Eq (values.entries.forM fun (placeholder, value) => reserveValue placeholder value)
      (values'.entries.forM fun (placeholder, value) => reserveValue placeholder value) := by
  refine .forM_perm hperm values.nodup_entries
    (fun entry _ => reserveValue_simulates entry.1 entry.2) ?_
  rintro ⟨p, value⟩ hp ⟨q, other⟩ hq hne
  refine .of_self ((reserveValue_simulates q other).bind fun _ _ _ =>
    reserveValue_simulates p value) ?_
  intro ctx last a hrun
  obtain ⟨_, mid, hfirst, hsecond⟩ := runOn_bind_eq_ok_iff.mp hrun
  obtain ⟨mid', last', hfirst', hsecond', hlast⟩ := Context.reserveValue_comm
    (Dict.key_ne_of_mem hp hq hne) (runOn_reserveValue_eq_ok_iff.mp hfirst)
    (runOn_reserveValue_eq_ok_iff.mp hsecond)
  exact ⟨last', runOn_bind_eq_ok_iff.mpr ⟨a, mid', runOn_reserveValue_eq_ok_iff.mpr hfirst',
    runOn_reserveValue_eq_ok_iff.mpr hsecond'⟩, hlast⟩

end Compile

end DocExpr
