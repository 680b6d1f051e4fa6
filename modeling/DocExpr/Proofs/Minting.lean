import DocExpr.Proofs.History

/-!
# Minting

A context that needs a new placeholder draws code after code, from its position on, until one makes
a placeholder that it has not got.  Nothing in that loop says that it ends.  It does because no code
comes twice: each draw that fails uses up one of the placeholders that the context has, and they are
finitely many, whatever short codes and whatever placeholders of the caller are among them.

Names and values look into different dictionaries and so skip different codes, but they draw from
one position, which only ever goes up.  What the one has minted the other therefore never mints.

## Main definitions

* `Context.Search`: a search for a free code, with the draws that it took
* `Context.Mints`: the number that a search ends on is the first free one
* `Context.minted`: the codes that a history mints

## Main results

* `Context.exists_mints`: every search ends, within one draw more than there are placeholders
* `Context.exists_numbers_of_minted`: the codes of a history are those of ascending numbers
* `Context.minting_first_free`: what a binding mints, after every history
-/

namespace DocExpr

/-! ## The first free number -/

theorem le_firstFree (taken : Nat → Bool) (fuel k : Nat) : k ≤ firstFree taken fuel k := by
  induction fuel generalizing k with
  | zero => exact Nat.le_refl k
  | succ fuel ih =>
    rw [firstFree]
    split
    · exact Nat.le_of_succ_le (ih (k + 1))
    · exact Nat.le_refl k

theorem firstFree_le (taken : Nat → Bool) (fuel k : Nat) : firstFree taken fuel k ≤ k + fuel := by
  induction fuel generalizing k with
  | zero => exact Nat.le_refl k
  | succ fuel ih =>
    rw [firstFree]
    split
    · have := ih (k + 1)
      omega
    · omega

/-- What the search passes over is taken. -/
theorem taken_of_lt_firstFree (taken : Nat → Bool) {fuel k j : Nat} (hle : k ≤ j)
    (hlt : j < firstFree taken fuel k) : taken j = true := by
  induction fuel generalizing k with
  | zero => exact absurd hlt (Nat.not_lt.mpr hle)
  | succ fuel ih =>
    rw [firstFree] at hlt
    split at hlt
    · next hk =>
      rcases Nat.lt_or_eq_of_le hle with hnext | rfl
      · exact ih hnext hlt
      · exact hk
    · exact absurd hlt (Nat.not_lt.mpr hle)

namespace Context

variable {α : Type} {alphabet : Alphabet} {ctx : Context} {placeholder : String → String}
  {taken : Dict α}

/-! ## Searches -/

/-- A search for a code whose placeholder is no key of a dictionary: codes are drawn one after the
other, each from the context that the draw before it left, until one is free. -/
inductive Search (placeholder : String → String) (taken : Dict α) :
    Context → (draws : Nat) → String → Context → Prop
  | found {ctx ctx' : Context} {code : String} (hdraw : ctx.nextCode = .ok (code, ctx'))
      (hfree : placeholder code ∉ taken.keys) :
      Search placeholder taken ctx 1 (placeholder code) ctx'
  | again {ctx mid ctx' : Context} {code found : String} {draws : Nat}
      (hdraw : ctx.nextCode = .ok (code, mid)) (htaken : placeholder code ∈ taken.keys)
      (hrest : Search placeholder taken mid draws found ctx') :
      Search placeholder taken ctx (draws + 1) found ctx'

/-- A search goes one way only. -/
theorem Search.unique {draws draws' : Nat} {found found' : String} {ctx' ctx'' : Context}
    (h : Search placeholder taken ctx draws found ctx')
    (h' : Search placeholder taken ctx draws' found' ctx'') :
    draws = draws' ∧ found = found' ∧ ctx' = ctx'' := by
  induction h generalizing draws' with
  | found hdraw hfree =>
    cases h' with
    | found hdraw' _ =>
      rw [hdraw] at hdraw'
      cases hdraw'
      exact ⟨rfl, rfl, rfl⟩
    | again hdraw' htaken _ =>
      rw [hdraw] at hdraw'
      cases hdraw'
      exact absurd htaken hfree
  | again hdraw htaken _ ih =>
    cases h' with
    | found hdraw' hfree =>
      rw [hdraw] at hdraw'
      cases hdraw'
      exact absurd htaken hfree
    | again hdraw' _ hrest =>
      rw [hdraw] at hdraw'
      cases hdraw'
      obtain ⟨hdraws, hfound, hctx⟩ := ih hrest
      exact ⟨congrArg (· + 1) hdraws, hfound, hctx⟩

/-- A draw yields the code of the position, whatever is bound. -/
theorem nextCode_of_alphabet (halphabet : Alphabet.ofSymbols ctx.symbols = .ok alphabet) :
    ctx.nextCode =
      .ok (alphabet.code ctx.position, { ctx with position := ctx.position + 1 }) := by
  rw [nextCode, halphabet]

/-- With an alphabet, a search draws the codes of the numbers from the position on, up to the first
free one. -/
theorem search_of_first (halphabet : Alphabet.ofSymbols ctx.symbols = .ok alphabet) {k : Nat}
    (hle : ctx.position ≤ k) (hfree : placeholder (alphabet.code k) ∉ taken.keys)
    (hleast : ∀ j, ctx.position ≤ j → j < k → placeholder (alphabet.code j) ∈ taken.keys) :
    Search placeholder taken ctx (k - ctx.position + 1) (placeholder (alphabet.code k))
      { ctx with position := k + 1 } := by
  -- The induction is on the codes that have to be passed over.
  obtain ⟨passed, rfl⟩ := Nat.exists_eq_add_of_le hle
  induction passed generalizing ctx with
  | zero => simpa using Search.found (nextCode_of_alphabet halphabet) hfree
  | succ passed ih =>
    have hnow := hleast ctx.position (Nat.le_refl _) (by omega)
    have hsum : ctx.position + (passed + 1) = ctx.position + 1 + passed := by omega
    rw [hsum] at hfree hleast ⊢
    have hrest := @ih { ctx with position := ctx.position + 1 } halphabet
      (Nat.le_add_right _ _) hfree fun j hj => hleast j (Nat.le_of_succ_le hj)
    have hdraws : ctx.position + 1 + passed - ctx.position + 1 =
        ctx.position + 1 + passed - (ctx.position + 1) + 1 + 1 := by omega
    rw [hdraws]
    exact Search.again (nextCode_of_alphabet halphabet) hnow hrest

/-- From the position of a context on, `k` is the first number whose code makes a placeholder that
is no key; the search comes to it, and does so within one draw more than there are keys. -/
structure Mints (ctx : Context) (alphabet : Alphabet) (placeholder : String → String)
    (taken : Dict α) (k : Nat) : Prop where
  le : ctx.position ≤ k
  free : placeholder (alphabet.code k) ∉ taken.keys
  least : ∀ j, ctx.position ≤ j → j < k → placeholder (alphabet.code j) ∈ taken.keys
  search : ∀ draws found ctx', Search placeholder taken ctx draws found ctx' ↔
    draws = k - ctx.position + 1 ∧ found = placeholder (alphabet.code k) ∧
      ctx' = { ctx with position := k + 1 }
  draws_le : k - ctx.position + 1 ≤ taken.size + 1

/-- **Every search ends**, and its end is what is minted. -/
theorem exists_mints (halphabet : Alphabet.ofSymbols ctx.symbols = .ok alphabet)
    (injective : Function.Injective placeholder) (taken : Dict α) :
    ∃ k, ctx.Mints alphabet placeholder taken k ∧
      ctx.mint placeholder taken =
        .ok (placeholder (alphabet.code k), { ctx with position := k + 1 }) := by
  let k := firstFree (fun k => taken.contains (placeholder (alphabet.code k))) taken.size
    ctx.position
  have hle : ctx.position ≤ k := le_firstFree ..
  have hfree : placeholder (alphabet.code k) ∉ taken.keys :=
    firstFree_free taken (fun k => placeholder (alphabet.code k))
      (injective.comp alphabet.code_injective) ctx.position
  have hleast : ∀ j, ctx.position ≤ j → j < k → placeholder (alphabet.code j) ∈ taken.keys := by
    intro j hj hlt
    exact (taken.contains_iff _).mp (taken_of_lt_firstFree _ hj hlt)
  have hsearch := search_of_first halphabet hle hfree hleast
  have hbound : k ≤ ctx.position + taken.size := firstFree_le ..
  refine ⟨k, ⟨hle, hfree, hleast, fun draws found ctx' => ⟨fun h => h.unique hsearch, ?_⟩, ?_⟩, ?_⟩
  · rintro ⟨rfl, rfl, rfl⟩
    exact hsearch
  · omega
  · rw [mint, halphabet]

/-! ## Bindings that mint -/

/-- A field without a placeholder, whose short code is taken if it has one, gets a minted one. -/
theorem bindName_eq_mint {field : String} {code : Option String}
    (hfield : ctx.names.get? field = none)
    (hcode : ∀ token ∈ code, namePlaceholder token ∈ ctx.owners.keys) :
    ctx.bindName field code =
      (ctx.mint namePlaceholder ctx.owners).map fun minted =>
        (minted.1, minted.2.assign minted.1 field) := by
  have htaken : (code.map namePlaceholder).filter
      (fun placeholder => !ctx.owners.contains placeholder) = none := by
    rw [Option.filter_eq_none_iff]
    intro p hp
    obtain ⟨token, htoken, rfl⟩ := Option.map_eq_some_iff.mp hp
    simpa using (ctx.owners.contains_iff _).mpr (hcode token htoken)
  rw [bindName, hfield, htaken]
  rcases ctx.mint namePlaceholder ctx.owners with e | ⟨p, ctx'⟩ <;> rfl

/-- A value with finite numbers gets a minted placeholder. -/
theorem bindValue_eq_mint {value : AttributeValue} (hfinite : value.invalidNumber? = none) :
    ctx.bindValue value =
      (ctx.mint valuePlaceholder ctx.values).map fun minted =>
        (⟨minted.1, value⟩,
          { minted.2 with values := minted.2.values.insert minted.1 value }) := by
  rw [bindValue, hfinite]
  rcases ctx.mint valuePlaceholder ctx.values with e | ⟨p, ctx'⟩ <;> rfl

/-! ## Histories -/

/-- Whether a step mints a code if it succeeds: a field does that has no placeholder and no free
short code, and so does every value. -/
def Step.mints (ctx : Context) : Step → Bool
  | bindName field code =>
    (ctx.names.get? field).isNone &&
      code.all fun token => ctx.owners.contains (namePlaceholder token)
  | bindValue _ => true
  | reserveName .. | reserveValue .. => false

/-- What stands behind the sigil of a placeholder. -/
def behindSigil (placeholder : String) : String := String.ofList placeholder.toList.tail

theorem behindSigil_namePlaceholder (token : String) :
    behindSigil (namePlaceholder token) = token := by
  simp [behindSigil, namePlaceholder, String.toList_append]

theorem behindSigil_valuePlaceholder (token : String) :
    behindSigil (valuePlaceholder token) = token := by
  simp [behindSigil, valuePlaceholder, String.toList_append]

/-- The codes that a history mints, in order, for names and for values alike. -/
def minted (ctx : Context) : List Step → List String
  | [] => []
  | step :: rest =>
    match step.apply ctx with
    | .error _ => minted ctx rest
    | .ok (placeholder, ctx') =>
      if step.mints ctx then behindSigil placeholder :: minted ctx' rest else minted ctx' rest

/-- A step that mints takes the code of a number from the position on and moves the position behind
it. -/
theorem Step.exists_number {ctx' : Context} {p : String} {step : Step}
    (halphabet : Alphabet.ofSymbols ctx.symbols = .ok alphabet) (hmints : step.mints ctx = true)
    (h : step.apply ctx = .ok (p, ctx')) :
    ∃ k, ctx.position ≤ k ∧ behindSigil p = alphabet.code k ∧ ctx'.position = k + 1 := by
  cases step with
  | bindName field code =>
    simp only [mints, Bool.and_eq_true, Option.isNone_iff_eq_none, Option.all_eq_true] at hmints
    obtain ⟨hfield, hcode⟩ := hmints
    have htaken : ∀ token ∈ code, namePlaceholder token ∈ ctx.owners.keys := fun token htoken =>
      (ctx.owners.contains_iff _).mp (hcode token htoken)
    obtain ⟨k, hk, hmint⟩ := exists_mints halphabet namePlaceholder_injective ctx.owners
    rw [apply, bindName_eq_mint hfield htaken, hmint] at h
    cases h
    exact ⟨k, hk.le, behindSigil_namePlaceholder _, rfl⟩
  | bindValue value =>
    obtain ⟨⟨bound, bindCtx⟩, hbind, heq⟩ := Except.map_eq_ok_iff.mp h
    cases heq
    have hfinite := ((exists_bindValue_iff value).mp ⟨bound, ctx', hbind⟩).1
    obtain ⟨k, hk, hmint⟩ := exists_mints halphabet valuePlaceholder_injective ctx.values
    rw [bindValue_eq_mint hfinite, hmint] at hbind
    cases hbind
    exact ⟨k, hk.le, behindSigil_valuePlaceholder _, rfl⟩
  | reserveName placeholder field => cases hmints
  | reserveValue placeholder value => cases hmints

/-- A step that mints nothing leaves the position where it was. -/
theorem Step.position_apply {ctx' : Context} {p : String} {step : Step}
    (hmints : step.mints ctx = false) (h : step.apply ctx = .ok (p, ctx')) :
    ctx'.position = ctx.position := by
  cases step with
  | bindName field code =>
    rw [apply, Context.bindName] at h
    cases hfield : ctx.names.get? field with
    | some bound =>
      rw [hfield] at h
      cases h
      rfl
    | none =>
      -- There is a short code then, and its placeholder is free.
      have hcode : (code.all fun token => ctx.owners.contains (namePlaceholder token)) = false := by
        simpa [mints, hfield] using hmints
      cases code with
      | none => cases hcode
      | some token =>
        rw [Option.all_some] at hcode
        rw [hfield, Option.map_some, Option.filter_some, hcode] at h
        cases h
        rfl
  | bindValue value => cases hmints
  | reserveName placeholder field =>
    obtain ⟨after, hreserve, heq⟩ := Except.map_eq_ok_iff.mp h
    cases heq
    rcases reserveName_cases hreserve with rfl | ⟨-, rfl⟩ <;> rfl
  | reserveValue placeholder value =>
    obtain ⟨after, hreserve, heq⟩ := Except.map_eq_ok_iff.mp h
    cases heq
    rcases reserveValue_cases hreserve with rfl | ⟨-, rfl⟩ <;> rfl

/-- **The codes of a history are those of ascending numbers.** -/
theorem exists_numbers_of_minted (halphabet : Alphabet.ofSymbols ctx.symbols = .ok alphabet)
    (history : List Step) :
    ∃ numbers : List Nat, ctx.minted history = numbers.map alphabet.code ∧
      numbers.Pairwise (· < ·) ∧ ∀ k ∈ numbers, ctx.position ≤ k := by
  induction history generalizing ctx with
  | nil => exact ⟨[], rfl, .nil, List.forall_mem_nil _⟩
  | cons step rest ih =>
    rw [minted]
    split
    · exact ih halphabet
    · next p ctx' hstep =>
      have halphabet' : Alphabet.ofSymbols ctx'.symbols = .ok alphabet := by
        rw [Step.symbols_apply hstep, halphabet]
      obtain ⟨numbers, hnumbers, hascend, hfrom⟩ := ih halphabet'
      split
      · next hmints =>
        -- What is minted later has a number from the new position on, so a greater one.
        obtain ⟨k, hk, hcode, hposition⟩ := Step.exists_number halphabet hmints hstep
        refine ⟨k :: numbers, ?_, ?_, ?_⟩
        · rw [hcode, hnumbers, List.map_cons]
        · exact List.pairwise_cons.mpr ⟨fun j hj => by have := hfrom j hj; omega, hascend⟩
        · exact List.forall_mem_cons.mpr ⟨hk, fun j hj => by have := hfrom j hj; omega⟩
      · next hmints =>
        have hposition := Step.position_apply (Bool.eq_false_iff.mpr hmints) hstep
        exact ⟨numbers, hnumbers, hascend, fun j hj => hposition ▸ hfrom j hj⟩

/-- **Minting takes the first free code.**  On an alphabet, in the context after any history, which
may reserve placeholders and prefer short codes as it likes:

1. A name that needs a minted code gets that of the first number, from the position on, whose
   placeholder no field owns, and the position moves right behind this number.  The search for it
   ends within one draw more than there are placeholders of fields.
2. So does a value with finite numbers, among the placeholders of values.
3. No code is minted twice in a history, neither for two names, nor for two values, nor for a name
   and a value.

The position moves by no more than the count of placeholders and one, so it stays within 64 bits if
it was that far below. -/
theorem minting_first_free (symbols : String) (alphabet : Alphabet)
    (halphabet : Alphabet.ofSymbols symbols.toList = .ok alphabet) (history : List Step) :
    let ctx := (fresh symbols).after history
    (∀ field code, ctx.names.get? field = none →
      (∀ token ∈ code, namePlaceholder token ∈ ctx.owners.keys) →
      ∃ k, ctx.Mints alphabet namePlaceholder ctx.owners k ∧
        ctx.bindName field code = .ok (namePlaceholder (alphabet.code k),
          { ctx with position := k + 1 }.assign (namePlaceholder (alphabet.code k)) field)) ∧
    (∀ value, value.invalidNumber? = none →
      ∃ k, ctx.Mints alphabet valuePlaceholder ctx.values k ∧
        ctx.bindValue value = .ok (⟨valuePlaceholder (alphabet.code k), value⟩,
          { ctx with
            position := k + 1
            values := ctx.values.insert (valuePlaceholder (alphabet.code k)) value })) ∧
    ((fresh symbols).minted history).Nodup := by
  intro ctx
  have hctx : Alphabet.ofSymbols ctx.symbols = .ok alphabet := by
    rw [symbols_after (fresh symbols) history]
    exact halphabet
  refine ⟨fun field code hfield hcode => ?_, fun value hfinite => ?_, ?_⟩
  · obtain ⟨k, hk, hmint⟩ := exists_mints hctx namePlaceholder_injective ctx.owners
    refine ⟨k, hk, ?_⟩
    rw [bindName_eq_mint hfield hcode, hmint]
    rfl
  · obtain ⟨k, hk, hmint⟩ := exists_mints hctx valuePlaceholder_injective ctx.values
    refine ⟨k, hk, ?_⟩
    rw [bindValue_eq_mint hfinite, hmint]
    rfl
  · have hfresh : Alphabet.ofSymbols (fresh symbols).symbols = .ok alphabet := halphabet
    obtain ⟨numbers, hnumbers, hascend, -⟩ := exists_numbers_of_minted hfresh history
    rw [hnumbers]
    exact List.Nodup.map alphabet.code_injective (hascend.imp Nat.ne_of_lt)

/-- A short code takes `#A` and the caller takes `:B`.  The first value gets `:A`; then a name that
would have had `#A` gets `#B` at the first draw, and a value passes over `:B` and gets `:AA` at the
second. -/
theorem minting_first_free_skips :
    let history : List Step := [.bindName "age" (some "A"), .reserveValue ":B" (.number "1"),
      .bindValue (.number "2")]
    let ctx := (fresh "AB").after history
    (fresh "AB").minted history = ["A"] ∧ ((fresh "AB").minted history).Nodup ∧
      ∃ alphabet, Alphabet.ofSymbols "AB".toList = .ok alphabet ∧
        (ctx.Mints alphabet namePlaceholder ctx.owners 1 ∧
          ∃ ctx', ctx.bindName "name" (some "A") = .ok ("#B", ctx') ∧ ctx'.position = 2) ∧
        ctx.Mints alphabet valuePlaceholder ctx.values 2 ∧
          ∃ ctx', ctx.bindValue (.number "3") = .ok (⟨":AA", .number "3"⟩, ctx') ∧
            ctx'.position = 3 := by
  intro history ctx
  obtain ⟨alphabet, halphabet⟩ : ∃ alphabet, Alphabet.ofSymbols "AB".toList = .ok alphabet :=
    ⟨_, rfl⟩
  obtain ⟨hname, hvalue, hnodup⟩ := minting_first_free "AB" alphabet halphabet history
  refine ⟨by decide +kernel, hnodup, alphabet, halphabet, ?_, ?_⟩
  · obtain ⟨k, hk, hbind⟩ := hname "name" (some "A") (by decide +kernel) (by decide +kernel)
    have hrun : (ctx.bindName "name" (some "A")).toOption.map
        (fun result => (result.1, result.2.position)) = some ("#B", 2) := by decide +kernel
    rw [hbind] at hrun ⊢
    obtain ⟨hp, hposition⟩ : namePlaceholder (alphabet.code k) = "#B" ∧ k + 1 = 2 :=
      Prod.mk.inj (Option.some.inj hrun)
    obtain rfl : k = 1 := Nat.succ.inj hposition
    exact ⟨hk, _, by rw [hp], rfl⟩
  · obtain ⟨k, hk, hbind⟩ := hvalue (.number "3") (by decide +kernel)
    have hrun : (ctx.bindValue (.number "3")).toOption.map
        (fun result => (result.1.placeholder, result.2.position)) = some (":AA", 3) := by
      decide +kernel
    rw [hbind] at hrun ⊢
    obtain ⟨hp, hposition⟩ : valuePlaceholder (alphabet.code k) = ":AA" ∧ k + 1 = 3 :=
      Prod.mk.inj (Option.some.inj hrun)
    obtain rfl : k = 2 := Nat.succ.inj hposition
    exact ⟨hk, _, by rw [hp], rfl⟩

end Context

end DocExpr
