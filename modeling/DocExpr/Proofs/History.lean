import DocExpr.Proofs.Binding
import DocExpr.Proofs.Except

/-!
# Histories of a context

The steps of a context come in any order and number, on any alphabet, and some of them fail.  What
holds of the context after all of them is proved step by step: a field and its placeholder belong
together, nothing that was bound is taken back, and a step that fails leaves no trace.

That a failed step leaves no trace is no matter of course.  A search draws code after code, and each
draw moves the position before it is known whether the code is free; `Compile.draw` is that search.
It can fail at its first draw only, since what a draw fails for is the alphabet, and the first draw
has moved nothing yet.  So drawing comes to the same as `Context.mint`, which looks for the free
number first.

## Main definitions

* `Compile.draw`, `Compile.drawName`, `Compile.drawValue`: bindings that draw their codes one by one
* `Context.Step`, `Context.after`: the steps of a context, and the context after some of them

## Main results

* `Compile.runOn_draw`: drawing is minting
* `Context.Step.le_of_apply`, `Context.Linked.apply`, `Context.Named.apply`: what each step keeps
* `Context.history_coherent`: what holds after every history, of it and of all that comes later
-/

namespace DocExpr

/-! ## Drawing codes one by one -/

/-- A search that has found a free number finds the same one when it may look further. -/
theorem firstFree_of_le (taken : Nat → Bool) {fuel more k : Nat} (hle : fuel ≤ more)
    (hfree : taken (firstFree taken fuel k) = false) :
    firstFree taken more k = firstFree taken fuel k := by
  induction fuel generalizing more k with
  | zero =>
    have hk : taken k = false := hfree
    cases more with
    | zero => rfl
    | succ more => simp [firstFree, hk]
  | succ fuel ih =>
    cases more with
    | zero => omega
    | succ more =>
      rw [firstFree] at hfree
      rw [firstFree, firstFree]
      split
      · next hk =>
        rw [if_pos hk] at hfree
        exact ih (by omega) hfree
      · rfl

namespace Compile

variable {α : Type}

/-- Draws codes until one makes a placeholder that is no key of a dictionary, `fuel + 1` times at
most.  Each draw moves the position of the context. -/
def draw (placeholder : String → String) (taken : Dict α) : (fuel : Nat) → Compile String
  | 0 => do return placeholder (← step Context.nextCode)
  | fuel + 1 => do
    let candidate := placeholder (← step Context.nextCode)
    if taken.contains candidate then draw placeholder taken fuel else return candidate

theorem runOn_nextCode_of_fault {ctx : Context} {fault : AlphabetFault}
    (h : Alphabet.ofSymbols ctx.symbols = .error fault) :
    (step Context.nextCode).runOn ctx = (.error (.allocation fault), ctx) := by
  rw [runOn_step, Context.nextCode, h]

theorem runOn_nextCode {ctx : Context} {alphabet : Alphabet}
    (h : Alphabet.ofSymbols ctx.symbols = .ok alphabet) :
    (step Context.nextCode).runOn ctx =
      (.ok (alphabet.code ctx.position), { ctx with position := ctx.position + 1 }) := by
  rw [runOn_step, Context.nextCode, h]

/-- Without an alphabet the first draw fails, and there is no second. -/
theorem runOn_draw_of_fault {ctx : Context} {fault : AlphabetFault}
    (h : Alphabet.ofSymbols ctx.symbols = .error fault) (placeholder : String → String)
    (taken : Dict α) (fuel : Nat) :
    (draw placeholder taken fuel).runOn ctx = (.error (.allocation fault), ctx) := by
  cases fuel <;> rw [draw, runOn_bind, runOn_nextCode_of_fault h]

/-- With an alphabet no draw fails, and the search ends behind the first free number. -/
theorem runOn_draw_of_alphabet {ctx : Context} {alphabet : Alphabet}
    (h : Alphabet.ofSymbols ctx.symbols = .ok alphabet) (placeholder : String → String)
    (taken : Dict α) (fuel : Nat) :
    (draw placeholder taken fuel).runOn ctx =
      let k := firstFree (fun k => taken.contains (placeholder (alphabet.code k))) fuel ctx.position
      (.ok (placeholder (alphabet.code k)), { ctx with position := k + 1 }) := by
  induction fuel generalizing ctx with
  | zero =>
    rw [draw, runOn_bind, runOn_nextCode h]
    rfl
  | succ fuel ih =>
    rw [draw, runOn_bind, runOn_nextCode h]
    simp only [firstFree]
    split
    · refine ih ?_
      exact h
    · rfl

/-- **Drawing is minting.**  The search ends within one draw more than there are taken placeholders,
and one that fails has moved nothing. -/
theorem runOn_draw {placeholder : String → String} (injective : Function.Injective placeholder)
    {taken : Dict α} {fuel : Nat} (hfuel : taken.size ≤ fuel) (ctx : Context) :
    (draw placeholder taken fuel).runOn ctx =
      (step fun ctx => ctx.mint placeholder taken).runOn ctx := by
  rw [runOn_step]
  rcases h : Alphabet.ofSymbols ctx.symbols with fault | alphabet
  · rw [runOn_draw_of_fault h, Context.mint, h]
  · have hfree := firstFree_free taken (fun k => placeholder (alphabet.code k))
      (injective.comp alphabet.code_injective) ctx.position
    have huntaken := Bool.eq_false_iff.mpr (mt (taken.contains_iff _).mp hfree)
    rw [runOn_draw_of_alphabet h, Context.mint, h,
      firstFree_of_le _ hfuel huntaken]

/-- Enters a placeholder of a field. -/
def assign (field placeholder : String) : Compile String :=
  step fun ctx => .ok (placeholder, ctx.assign placeholder field)

/-- The placeholder of a field, with a code that is drawn if it needs one. -/
def drawName (fuel : Nat) (field : String) (code : Option String) : Compile String := do
  let ctx ← get
  match ctx.names.get? field with
  | some placeholder => return placeholder
  | none =>
    match (code.map namePlaceholder).filter fun placeholder => !ctx.owners.contains placeholder with
    | some placeholder => assign field placeholder
    | none => draw namePlaceholder ctx.owners fuel >>= assign field

/-- A placeholder for a value, with a code that is drawn after the numbers of the value have been
found to be finite. -/
def drawValue (fuel : Nat) (value : AttributeValue) : Compile BoundValue := do
  if let some numeral := value.invalidNumber? then
    throw (.invalidNumber numeral)
  let ctx ← get
  let placeholder ← draw valuePlaceholder ctx.values fuel
  modify fun ctx => { ctx with values := ctx.values.insert placeholder value }
  return ⟨placeholder, value⟩

theorem runOn_get_bind {β : Type} (next : Context → Compile β) (ctx : Context) :
    (get >>= next).runOn ctx = (next ctx).runOn ctx := rfl

theorem runOn_drawName {fuel : Nat} {ctx : Context} (hfuel : ctx.owners.size ≤ fuel)
    (field : String) (code : Option String) :
    (drawName fuel field code).runOn ctx = (bindName field code).runOn ctx := by
  rw [bindName, runOn_step, Context.bindName, drawName, runOn_get_bind]
  rcases ctx.names.get? field with _ | placeholder
  · rcases (code.map namePlaceholder).filter fun placeholder => !ctx.owners.contains placeholder
      with _ | placeholder
    · change (draw namePlaceholder ctx.owners fuel >>= assign field).runOn ctx = _
      rw [runOn_bind, runOn_draw namePlaceholder_injective hfuel, runOn_step]
      rcases ctx.mint namePlaceholder ctx.owners with e | ⟨placeholder, ctx'⟩ <;> rfl
    · rfl
  · rfl

theorem runOn_drawValue {fuel : Nat} {ctx : Context} (hfuel : ctx.values.size ≤ fuel)
    (value : AttributeValue) :
    (drawValue fuel value).runOn ctx = (bindValue value).runOn ctx := by
  rw [bindValue, runOn_step, Context.bindValue, drawValue]
  rcases value.invalidNumber? with _ | numeral
  · change (draw valuePlaceholder ctx.values fuel >>= _).runOn ctx = _
    rw [runOn_bind, runOn_draw valuePlaceholder_injective hfuel, runOn_step]
    rcases ctx.mint valuePlaceholder ctx.values with e | ⟨placeholder, ctx'⟩ <;> rfl
  · rfl

end Compile

namespace Context

/-! ## Steps and histories -/

/-- A step of a context. -/
inductive Step where
  | bindName (field : String) (code : Option String)
  | bindValue (value : AttributeValue)
  | reserveName (placeholder field : String)
  | reserveValue (placeholder : String) (value : AttributeValue)

namespace Step

/-- The placeholder that a step is about, and the context after the step. -/
def apply (ctx : Context) : Step → Except ExpressionError (String × Context)
  | bindName field code => ctx.bindName field code
  | bindValue value => (fun (bound, ctx) => (bound.placeholder, ctx)) <$> ctx.bindValue value
  | reserveName placeholder field => (placeholder, ·) <$> ctx.reserveName placeholder field
  | reserveValue placeholder value => (placeholder, ·) <$> ctx.reserveValue placeholder value

/-- A step as a computation: it fails with the context as it was, or succeeds. -/
def run (step : Step) : Compile String := Compile.step fun ctx => step.apply ctx

/-- A step that draws its codes one by one. -/
def draw (fuel : Nat) : Step → Compile String
  | bindName field code => Compile.drawName fuel field code
  | bindValue value => BoundValue.placeholder <$> Compile.drawValue fuel value
  | reserveName placeholder field =>
    (fun _ => placeholder) <$> Compile.reserveName placeholder field
  | reserveValue placeholder value =>
    (fun _ => placeholder) <$> Compile.reserveValue placeholder value

variable {ctx ctx' : Context} {placeholder : String}

theorem runOn_map {α β : Type} (f : α → β) (computation : Compile α) (ctx : Context) :
    (f <$> computation).runOn ctx =
      ((computation.runOn ctx).1.map f, (computation.runOn ctx).2) := by
  rw [map_eq_pure_bind, Compile.runOn_bind]
  rcases computation.runOn ctx with ⟨_ | a, ctx'⟩ <;> rfl

/-- However its codes are drawn, a step has the result that it has at once. -/
theorem runOn_draw {fuel : Nat} (hnames : ctx.owners.size ≤ fuel) (hvalues : ctx.values.size ≤ fuel)
    (step : Step) :
    (step.draw fuel).runOn ctx = step.run.runOn ctx := by
  rw [run, Compile.runOn_step]
  cases step with
  | bindName field code =>
    rw [draw, Compile.runOn_drawName hnames]
    rfl
  | bindValue value =>
    rw [draw, runOn_map, Compile.runOn_drawValue hvalues, Compile.bindValue, Compile.runOn_step,
      apply]
    rcases ctx.bindValue value with e | ⟨bound, ctx'⟩ <;> rfl
  | reserveName placeholder field =>
    rw [draw, runOn_map, Compile.reserveName, Compile.runOn_step, apply]
    rcases ctx.reserveName placeholder field with e | ctx' <;> rfl
  | reserveValue placeholder value =>
    rw [draw, runOn_map, Compile.reserveValue, Compile.runOn_step, apply]
    rcases ctx.reserveValue placeholder value with e | ctx' <;> rfl

/-- What is kept by each of the four kinds of steps is kept by every step. -/
theorem apply_induction {R : Context → Context → Prop}
    (bindName : ∀ {ctx ctx' field code placeholder},
      ctx.bindName field code = .ok (placeholder, ctx') → R ctx ctx')
    (bindValue : ∀ {ctx ctx' value bound}, ctx.bindValue value = .ok (bound, ctx') → R ctx ctx')
    (reserveName : ∀ {ctx ctx' placeholder field},
      ctx.reserveName placeholder field = .ok ctx' → R ctx ctx')
    (reserveValue : ∀ {ctx ctx' placeholder value},
      ctx.reserveValue placeholder value = .ok ctx' → R ctx ctx')
    {step : Step} (h : step.apply ctx = .ok (placeholder, ctx')) : R ctx ctx' := by
  cases step with
  | bindName field code => exact bindName h
  | bindValue value =>
    obtain ⟨⟨bound, after⟩, hbind, heq⟩ := Except.map_eq_ok_iff.mp h
    cases heq
    exact bindValue hbind
  | reserveName placeholder field =>
    obtain ⟨after, hreserve, heq⟩ := Except.map_eq_ok_iff.mp h
    cases heq
    exact reserveName hreserve
  | reserveValue placeholder value =>
    obtain ⟨after, hreserve, heq⟩ := Except.map_eq_ok_iff.mp h
    cases heq
    exact reserveValue hreserve

theorem le_apply {step : Step} (h : step.apply ctx = .ok (placeholder, ctx')) : ctx ≤ ctx' :=
  apply_induction le_bindName le_bindValue le_reserveName le_reserveValue h

theorem symbols_apply {step : Step} (h : step.apply ctx = .ok (placeholder, ctx')) :
    ctx'.symbols = ctx.symbols := by
  refine apply_induction (fun h => (frame_bindName h).2) (fun h => ?_) (fun h => ?_)
    (fun h => ?_) h
  · obtain ⟨-, -, -, position, rfl⟩ := bindValue_cases h
    rfl
  · rcases reserveName_cases h with rfl | ⟨-, rfl⟩ <;> rfl
  · rcases reserveValue_cases h with rfl | ⟨-, rfl⟩ <;> rfl

end Step

variable {ctx ctx' : Context} {placeholder : String}

theorem Linked.apply {step : Step} (hlinked : ctx.Linked)
    (h : step.apply ctx = .ok (placeholder, ctx')) : ctx'.Linked :=
  Step.apply_induction (R := fun ctx ctx' => ctx.Linked → ctx'.Linked)
    (fun h hlinked => Linked.bindName hlinked h) (fun h hlinked => Linked.bindValue hlinked h)
    (fun h hlinked => Linked.reserveName hlinked h)
    (fun h hlinked => Linked.reserveValue hlinked h) h hlinked

/-- No two fields have one placeholder, since it belongs to both of them. -/
theorem Linked.injective (hlinked : ctx.Linked) {field other : String}
    (h : ctx.names.get? field = some placeholder)
    (hother : ctx.names.get? other = some placeholder) : field = other := by
  have howner := hlinked h
  rw [hlinked hother] at howner
  exact (Option.some.inj howner).symm

/-- The field of a name placeholder has a placeholder, this one or another. -/
def Named (ctx : Context) : Prop :=
  ∀ placeholder field, ctx.owners.get? placeholder = some field →
    ∃ first, ctx.names.get? field = some first

theorem named_fresh (alphabet : String) : (fresh alphabet).Named := nofun

/-- One more placeholder with its field, where the field has been given a placeholder if it had
none. -/
theorem Named.insert {field : String} (hnamed : ctx.Named) (hle : ctx ≤ ctx')
    (howners : ctx'.owners = ctx.owners.insert placeholder field)
    (hfield : ∃ first, ctx'.names.get? field = some first) : ctx'.Named := by
  intro other owner howner
  rw [howners, Dict.get?_insert] at howner
  split at howner
  · cases howner
    exact hfield
  · obtain ⟨first, hfirst⟩ := hnamed other owner howner
    exact ⟨first, hle.names hfirst⟩

theorem Named.apply {step : Step} (hnamed : ctx.Named)
    (h : step.apply ctx = .ok (placeholder, ctx')) : ctx'.Named := by
  refine Step.apply_induction (R := fun ctx ctx' => ctx.Named → ctx'.Named) (fun h hnamed => ?_)
    (fun h hnamed => ?_) (fun h hnamed => ?_) (fun h hnamed => ?_) h hnamed
  · have hle := le_bindName h
    rcases bindName_cases h with ⟨-, rfl⟩ | ⟨-, -, -, position, rfl⟩
    · exact hnamed
    · exact hnamed.insert hle rfl ⟨_, (Dict.get?_insert ..).trans (if_pos rfl)⟩
  · obtain ⟨-, -, -, position, rfl⟩ := bindValue_cases h
    exact hnamed
  · have hle := le_reserveName h
    rcases reserveName_cases h with rfl | ⟨-, rfl⟩
    · exact hnamed
    · exact hnamed.insert hle rfl (exists_names_reserve ..)
  · rcases reserveValue_cases h with rfl | ⟨-, rfl⟩
    · exact hnamed
    · exact hnamed

/-- The context after a history of steps; those that fail are gone over. -/
def after (ctx : Context) (history : List Step) : Context :=
  history.foldl (fun ctx step => (step.run.runOn ctx).2) ctx

/-- What every step keeps that succeeds, a history keeps. -/
theorem after_induction {I : Context → Prop}
    (happly : ∀ {ctx ctx' placeholder} {step : Step}, I ctx →
      step.apply ctx = .ok (placeholder, ctx') → I ctx')
    (h : I ctx) (history : List Step) : I (ctx.after history) := by
  induction history generalizing ctx with
  | nil => exact h
  | cons step rest ih =>
    refine ih ?_
    change I (step.run.runOn ctx).2
    rw [Step.run, Compile.runOn_step]
    rcases hstep : step.apply ctx with e | ⟨placeholder, ctx'⟩
    · exact h
    · exact happly h hstep

theorem le_after (ctx : Context) (history : List Step) : ctx ≤ ctx.after history :=
  after_induction (I := fun ctx' => ctx ≤ ctx')
    (fun hle h => le_trans hle (Step.le_apply h)) le_rfl history

theorem linked_after (hlinked : ctx.Linked) (history : List Step) : (ctx.after history).Linked :=
  after_induction (I := fun ctx => ctx.Linked) Linked.apply hlinked history

theorem named_after (hnamed : ctx.Named) (history : List Step) : (ctx.after history).Named :=
  after_induction (I := fun ctx => ctx.Named) Named.apply hnamed history

theorem symbols_after (ctx : Context) (history : List Step) :
    (ctx.after history).symbols = ctx.symbols :=
  after_induction (I := fun ctx' => ctx'.symbols = ctx.symbols)
    (fun hsymbols h => (Step.symbols_apply h).trans hsymbols) rfl history

/-- A value gets a placeholder whenever its numbers are finite and there is an alphabet. -/
theorem exists_bindValue_iff (value : AttributeValue) :
    (∃ bound ctx', ctx.bindValue value = .ok (bound, ctx')) ↔
      value.invalidNumber? = none ∧ ∃ alphabet, Alphabet.ofSymbols ctx.symbols = .ok alphabet := by
  rw [bindValue, mint]
  rcases value.invalidNumber? with _ | numeral
  · rcases Alphabet.ofSymbols ctx.symbols with fault | alphabet <;> simp
  · simp

/-- A field that has a placeholder keeps to it. -/
theorem bindName_of_bound {field : String} (h : ctx.names.get? field = some placeholder)
    (code : Option String) : ctx.bindName field code = .ok (placeholder, ctx) := by
  rw [bindName, h]

theorem names_bindName {field : String} {code : Option String}
    (h : ctx.bindName field code = .ok (placeholder, ctx')) :
    ctx'.names.get? field = some placeholder := by
  rcases bindName_cases h with ⟨hbound, rfl⟩ | ⟨-, -, -, position, rfl⟩
  · exact hbound
  · exact (Dict.get?_insert ..).trans (if_pos rfl)

/-- **A context stays coherent over every history**, on every alphabet and whatever the steps ask
for.

1. The placeholder of a field belongs to the field, so no two fields have one placeholder, and the
   field of every name placeholder has a placeholder.
2. What is bound is bound to the same after any further steps.
3. A value gets a placeholder that stood for none, whenever its numbers are finite and there is an
   alphabet; a field that was bound has the placeholder it was given whenever it is bound again.
4. A step that fails leaves the context as it was, its position included, and that is so when the
   codes are drawn one by one, which comes to the same for results and contexts alike. -/
theorem history_coherent (symbols : String) (history : List Step) :
    let ctx := (fresh symbols).after history
    ((∀ field placeholder, ctx.names.get? field = some placeholder →
        ctx.owners.get? placeholder = some field) ∧
      (∀ field other placeholder, ctx.names.get? field = some placeholder →
        ctx.names.get? other = some placeholder → field = other) ∧
      ∀ placeholder field, ctx.owners.get? placeholder = some field →
        ∃ first, ctx.names.get? field = some first) ∧
    (∀ further, ctx ≤ ctx.after further) ∧
    ((∀ value, (∃ bound ctx', ctx.bindValue value = .ok (bound, ctx')) ↔
        value.invalidNumber? = none ∧
          ∃ alphabet, Alphabet.ofSymbols symbols.toList = .ok alphabet) ∧
      (∀ value bound ctx', ctx.bindValue value = .ok (bound, ctx') →
        bound.placeholder ∉ ctx.values.keys) ∧
      (∀ field placeholder, ctx.names.get? field = some placeholder → ∀ further code,
        (ctx.after further).bindName field code = .ok (placeholder, ctx.after further)) ∧
      ∀ field code placeholder ctx', ctx.bindName field code = .ok (placeholder, ctx') →
        ∀ further again,
          (ctx'.after further).bindName field again = .ok (placeholder, ctx'.after further)) ∧
    ∀ (step : Step) (fuel : Nat), ctx.owners.size ≤ fuel → ctx.values.size ≤ fuel →
      (step.draw fuel).runOn ctx = step.run.runOn ctx ∧
        ∀ e ctx', (step.draw fuel).runOn ctx = (.error e, ctx') → ctx' = ctx := by
  intro ctx
  have hlinked : ctx.Linked := linked_after (linked_fresh symbols) history
  have hnamed : ctx.Named := named_after (named_fresh symbols) history
  have hsymbols : ctx.symbols = symbols.toList := symbols_after (fresh symbols) history
  refine ⟨⟨fun _ _ => hlinked, fun _ _ _ => hlinked.injective, hnamed⟩, le_after ctx,
    ⟨fun value => ?_, fun value bound ctx' h => ?_, fun field placeholder h further code => ?_,
      fun field code placeholder ctx' h further again => ?_⟩, fun step fuel hnames hvalues => ?_⟩
  · rw [exists_bindValue_iff, hsymbols]
  · obtain ⟨-, hfree, -⟩ := bindValue_cases h
    exact hfree
  · exact bindName_of_bound ((le_after ctx further).names h) code
  · exact bindName_of_bound ((le_after ctx' further).names (names_bindName h)) again
  · have hdraw := Step.runOn_draw hnames hvalues step
    refine ⟨hdraw, fun e ctx' h => ?_⟩
    rw [hdraw, Step.run, Compile.runOn_step] at h
    split at h
    · cases h
    · cases h
      rfl

/-- A field with a second placeholder, a value that is refused and a placeholder that belongs to
another field; the code `A` is left to the next value, while `B` is the caller's. -/
theorem history_coherent_reserved :
    let history : List Step := [.bindName "name" (some "A"), .reserveName "#x" "name",
      .reserveValue ":B" (.number "1"), .bindValue (.number "inf"), .reserveName "#A" "age"]
    let ctx := (fresh "AB").after history
    let later := ctx.after [.bindName "age" (some "A")]
    (ctx.names.get? "name" = some "#A" ∧ ctx.owners.get? "#A" = some "name") ∧
      (ctx.owners.get? "#x" = some "name" ∧ ∃ first, ctx.names.get? "name" = some first) ∧
      (∃ bound ctx', ctx.bindValue (.number "2") = .ok (bound, ctx') ∧
        bound.placeholder ∉ ctx.values.keys) ∧
      later.bindName "name" none = .ok ("#A", later) ∧
      ∃ e, (Step.draw 2 (.reserveName "#A" "age")).runOn ctx = (.error e, ctx) := by
  intro history ctx later
  obtain ⟨⟨hlinked, -, hnamed⟩, -, ⟨hvalues, hfree, hagain, -⟩, hfail⟩ :=
    history_coherent "AB" history
  have hname : ctx.names.get? "name" = some "#A" := by decide +kernel
  have hsecond : ctx.owners.get? "#x" = some "name" := by decide +kernel
  have halphabet : ∃ alphabet, Alphabet.ofSymbols "AB".toList = .ok alphabet := ⟨_, rfl⟩
  refine ⟨⟨hname, hlinked _ _ hname⟩, ⟨hsecond, hnamed _ _ hsecond⟩, ?_,
    hagain _ _ hname [.bindName "age" (some "A")] none, ?_⟩
  · obtain ⟨bound, ctx', hbind⟩ := (hvalues (.number "2")).mpr ⟨by decide +kernel, halphabet⟩
    exact ⟨bound, ctx', hbind, hfree _ _ _ hbind⟩
  · obtain ⟨-, hunchanged⟩ := hfail (.reserveName "#A" "age") 2 (by decide +kernel)
      (by decide +kernel)
    have hrefused : ((Step.draw 2 (.reserveName "#A" "age")).runOn ctx).1.toBool = false := by
      decide +kernel
    rcases hrun : (Step.draw 2 (.reserveName "#A" "age")).runOn ctx with ⟨e | placeholder, ctx'⟩
    · exact ⟨e, by rw [hunchanged e ctx' hrun]⟩
    · rw [hrun] at hrefused
      cases hrefused

end Context

end DocExpr
