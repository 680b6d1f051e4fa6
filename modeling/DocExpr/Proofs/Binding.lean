import DocExpr.Fragment
import DocExpr.Proofs.Code
import Mathlib.Order.Defs.PartialOrder

/-!
# What a context remembers

A context only ever learns: no step takes back a placeholder or gives it another meaning.  That is
the order on contexts, and every computation goes upwards in it, whether it succeeds or fails.

The two directions between fields and name placeholders agree: a context is *linked* when each field
owns its placeholder, and *interned* when each name placeholder is the one of its field.  Binding
keeps both; a reservation keeps the first only, since a caller may give one field two placeholders.

## Main definitions

* `Context.Extends`: the order on contexts
* `Context.Linked`, `Context.Interned`, `Context.Formed`: the invariants of bindings
* `Context.Stable I`, `Context.Admits I`: which steps keep `I`

## Main results

* `Context.bindName_cases`, `Context.bindValue_cases`, `Context.reserveName_eq_ok_iff`,
  `Context.reserveValue_eq_ok_iff`: all that a step can do
* `Context.le_bindName` and its like: every step goes upwards
* `Context.Linked.bindName` and its like: what each step keeps
-/

namespace DocExpr

namespace Context

/-! ## The order on contexts -/

/-- What the first context has bound is bound to the same in the second. -/
structure Extends (ctx ctx' : Context) : Prop where
  names {field placeholder : String} : ctx.names.get? field = some placeholder →
    ctx'.names.get? field = some placeholder
  owners {placeholder field : String} : ctx.owners.get? placeholder = some field →
    ctx'.owners.get? placeholder = some field
  values {placeholder : String} {value : AttributeValue} :
    ctx.values.get? placeholder = some value → ctx'.values.get? placeholder = some value

instance : Preorder Context where
  le := Extends
  le_refl _ := ⟨id, id, id⟩
  le_trans _ _ _ hab hbc :=
    ⟨hbc.names ∘ hab.names, hbc.owners ∘ hab.owners, hbc.values ∘ hab.values⟩

/-- A new key changes nothing for the keys that were there. -/
theorem get?_insert_of_notMem {α : Type} {d : Dict α} {key other : String} {value v : α}
    (hkey : key ∉ d.keys) (h : d.get? other = some v) :
    (d.insert key value).get? other = some v := by
  rw [Dict.get?_insert, if_neg]
  · exact h
  · rintro rfl
    exact hkey (Dict.mem_keys_of_get? h)

/-! ## The steps -/

variable {ctx ctx' : Context}

/-- The token of a new name placeholder is the short code or a minted one. -/
theorem bindName_cases {field placeholder : String} {code : Option String}
    (h : ctx.bindName field code = .ok (placeholder, ctx')) :
    (ctx.names.get? field = some placeholder ∧ ctx' = ctx) ∨
      (field ∉ ctx.names.keys ∧ placeholder ∉ ctx.owners.keys ∧
        (∃ token, (token ∈ code ∨ isToken token) ∧ placeholder = namePlaceholder token) ∧
        ∃ position, ctx' = { ctx with position }.assign placeholder field) := by
  rw [bindName] at h
  split at h
  · next bound =>
    cases h
    exact .inl ⟨bound, rfl⟩
  · next unbound =>
    have hfield : field ∉ ctx.names.keys := (ctx.names.get?_eq_none_iff field).mp unbound
    refine .inr ⟨hfield, ?_⟩
    -- A short code is taken if its placeholder is free; a mint is free by its search.
    split at h
    · next preferred hpreferred =>
      obtain ⟨hmap, hfree⟩ := Option.filter_eq_some_iff.mp hpreferred
      obtain ⟨token, htoken, rfl⟩ := Option.map_eq_some_iff.mp hmap
      cases h
      refine ⟨?_, ⟨token, .inl htoken, rfl⟩, ctx.position, rfl⟩
      intro hmem
      rw [(ctx.owners.contains_iff _).mpr hmem] at hfree
      cases hfree
    · split at h
      · cases h
      · next minted _ hmint =>
        cases h
        obtain ⟨⟨token, htoken, rfl⟩, hfree, position, rfl⟩ :=
          mint_eq_ok namePlaceholder_injective hmint
        exact ⟨hfree, ⟨token, .inr htoken, rfl⟩, position, rfl⟩

theorem bindValue_cases {value : AttributeValue} {bound : BoundValue}
    (h : ctx.bindValue value = .ok (bound, ctx')) :
    bound.value = value ∧ bound.placeholder ∉ ctx.values.keys ∧
      (∃ token, isToken token ∧ bound.placeholder = valuePlaceholder token) ∧
      ∃ position, ctx' =
        { ctx with position, values := ctx.values.insert bound.placeholder value } := by
  rw [bindValue] at h
  split at h
  · cases h
  · split at h
    · cases h
    · next hmint =>
      cases h
      obtain ⟨htoken, hfree, position, rfl⟩ := mint_eq_ok valuePlaceholder_injective hmint
      exact ⟨rfl, hfree, htoken, position, rfl⟩

/-- Binding a name leaves the values and the symbols alone. -/
theorem frame_bindName {field placeholder : String} {code : Option String}
    (h : ctx.bindName field code = .ok (placeholder, ctx')) :
    ctx'.values = ctx.values ∧ ctx'.symbols = ctx.symbols := by
  rcases bindName_cases h with ⟨-, rfl⟩ | ⟨-, -, -, position, rfl⟩
  · exact ⟨rfl, rfl⟩
  · exact ⟨rfl, rfl⟩

/-- The context after a placeholder that was free is reserved for a field. -/
def reserve (ctx : Context) (placeholder field : String) : Context :=
  { ctx with
    owners := ctx.owners.insert placeholder field
    names := if ctx.names.contains field then ctx.names else ctx.names.insert field placeholder }

/-- A placeholder can be reserved if it is free or belongs to the field. -/
theorem reserveName_eq_ok_iff {placeholder field : String} :
    ctx.reserveName placeholder field = .ok ctx' ↔
      (ctx.owners.get? placeholder = some field ∧ ctx' = ctx) ∨
        ctx.owners.get? placeholder = none ∧ ctx' = ctx.reserve placeholder field := by
  rw [reserveName]
  cases ctx.owners.get? placeholder with
  | none =>
    constructor
    · intro h
      cases h
      exact .inr ⟨rfl, rfl⟩
    · rintro (⟨h, -⟩ | ⟨-, rfl⟩)
      · cases h
      · rfl
  | some owner =>
    by_cases howner : owner = field
    · simp [howner, eq_comm]
    · simp [howner]

theorem owners_reserve (placeholder field other : String) :
    (ctx.reserve placeholder field).owners.get? other =
      if placeholder = other then some field else ctx.owners.get? other :=
  Dict.get?_insert ..

/-- A field keeps the placeholder that it has. -/
theorem names_reserve (placeholder field other : String) :
    (ctx.reserve placeholder field).names.get? other =
      (ctx.names.get? other).or (if field = other then some placeholder else none) := by
  rw [reserve]
  split
  · next hbound =>
    by_cases heq : field = other
    · obtain ⟨p, hp⟩ := Option.isSome_iff_exists.mp hbound
      rw [← heq, hp, Option.some_or]
    · simp [heq]
  · next hfree =>
    rw [Dict.get?_insert]
    split
    · next heq =>
      rw [← heq, Option.not_isSome_iff_eq_none.mp hfree, Option.none_or]
    · rw [Option.or_none]

/-- A field that had no placeholder now has the reserved one. -/
theorem exists_names_reserve (placeholder field : String) :
    ∃ first, (ctx.reserve placeholder field).names.get? field = some first := by
  rw [names_reserve, if_pos rfl]
  cases ctx.names.get? field with
  | none => exact ⟨placeholder, rfl⟩
  | some first => exact ⟨first, rfl⟩

theorem reserveName_cases {placeholder field : String}
    (h : ctx.reserveName placeholder field = .ok ctx') :
    ctx' = ctx ∨ (placeholder ∉ ctx.owners.keys ∧ ctx' = ctx.reserve placeholder field) :=
  (reserveName_eq_ok_iff.mp h).imp And.right
    fun ⟨hfree, heq⟩ => ⟨(ctx.owners.get?_eq_none_iff placeholder).mp hfree, heq⟩

/-- A placeholder can be reserved if it is free or has an equal value. -/
theorem reserveValue_eq_ok_iff {placeholder : String} {value : AttributeValue} :
    ctx.reserveValue placeholder value = .ok ctx' ↔ value.invalidNumber? = none ∧
      ((∃ bound, ctx.values.get? placeholder = some bound ∧ bound.same value = true ∧ ctx' = ctx) ∨
        ctx.values.get? placeholder = none ∧
          ctx' = { ctx with values := ctx.values.insert placeholder value }) := by
  rw [reserveValue]
  cases value.invalidNumber? with
  | some numeral => simp
  | none =>
    cases ctx.values.get? placeholder with
    | none => simp [eq_comm (b := ctx')]
    | some bound =>
      by_cases hsame : bound.same value = true
      · simp [hsame, eq_comm (b := ctx')]
      · simp [hsame]

theorem reserveValue_cases {placeholder : String} {value : AttributeValue}
    (h : ctx.reserveValue placeholder value = .ok ctx') :
    ctx' = ctx ∨ (placeholder ∉ ctx.values.keys ∧
      ctx' = { ctx with values := ctx.values.insert placeholder value }) := by
  obtain ⟨-, ⟨_, -, -, heq⟩ | ⟨hfree, heq⟩⟩ := reserveValue_eq_ok_iff.mp h
  · exact .inl heq
  · exact .inr ⟨(ctx.values.get?_eq_none_iff placeholder).mp hfree, heq⟩

/-- A reservation that succeeds has its field, now or before. -/
theorem owners_reserveName {placeholder field : String}
    (h : ctx.reserveName placeholder field = .ok ctx') :
    ctx'.owners.get? placeholder = some field := by
  rcases reserveName_eq_ok_iff.mp h with ⟨howned, rfl⟩ | ⟨-, rfl⟩
  · exact howned
  · rw [owners_reserve, if_pos rfl]

/-- A reservation that succeeds has its value, now or before. -/
theorem values_reserveValue {placeholder : String} {value : AttributeValue}
    (h : ctx.reserveValue placeholder value = .ok ctx') (hself : value.same value = true) :
    ∃ bound, ctx'.values.get? placeholder = some bound ∧ bound.same value = true := by
  obtain ⟨-, ⟨bound, hbound, hsame, rfl⟩ | ⟨-, rfl⟩⟩ := reserveValue_eq_ok_iff.mp h
  · exact ⟨bound, hbound, hsame⟩
  · refine ⟨value, ?_, hself⟩
    show (ctx.values.insert placeholder value).get? placeholder = some value
    rw [Dict.get?_insert, if_pos rfl]

/-! ### Every step goes upwards -/

theorem le_bindName {field placeholder : String} {code : Option String}
    (h : ctx.bindName field code = .ok (placeholder, ctx')) : ctx ≤ ctx' := by
  rcases bindName_cases h with ⟨-, rfl⟩ | ⟨hfield, hplaceholder, -, position, rfl⟩
  · exact le_rfl
  · exact ⟨get?_insert_of_notMem hfield, get?_insert_of_notMem hplaceholder, id⟩

theorem le_bindValue {value : AttributeValue} {bound : BoundValue}
    (h : ctx.bindValue value = .ok (bound, ctx')) : ctx ≤ ctx' := by
  obtain ⟨-, hfree, -, position, rfl⟩ := bindValue_cases h
  exact ⟨id, id, get?_insert_of_notMem hfree⟩

theorem le_reserveName {placeholder field : String}
    (h : ctx.reserveName placeholder field = .ok ctx') : ctx ≤ ctx' := by
  rcases reserveName_cases h with rfl | ⟨hfree, rfl⟩
  · exact le_rfl
  · refine ⟨fun {other _} hother => ?_, get?_insert_of_notMem hfree, id⟩
    rw [names_reserve, hother, Option.some_or]

theorem le_reserveValue {placeholder : String} {value : AttributeValue}
    (h : ctx.reserveValue placeholder value = .ok ctx') : ctx ≤ ctx' := by
  rcases reserveValue_cases h with rfl | ⟨hfree, rfl⟩
  · exact le_rfl
  · exact ⟨id, id, get?_insert_of_notMem hfree⟩

/-! ## Invariants -/

/-- The placeholder of a field belongs to the field. -/
def Linked (ctx : Context) : Prop :=
  ∀ {field placeholder : String}, ctx.names.get? field = some placeholder →
    ctx.owners.get? placeholder = some field

/-- A field has no placeholder but its own. -/
def Interned (ctx : Context) : Prop :=
  ∀ {placeholder field : String}, ctx.owners.get? placeholder = some field →
    ctx.names.get? field = some placeholder

/-- Every name placeholder and every value placeholder is of its form. -/
structure Formed (nameForm valueForm : String → Prop) (ctx : Context) : Prop where
  owners : ∀ placeholder ∈ ctx.owners.keys, nameForm placeholder
  values : ∀ placeholder ∈ ctx.values.keys, valueForm placeholder

/-- An invariant that binding keeps. -/
structure Stable (I : Context → Prop) : Prop where
  linked {ctx : Context} : I ctx → ctx.Linked
  bindName {ctx ctx' : Context} {field placeholder : String} {code : Option String} : I ctx →
    (∀ token ∈ code, isToken token) → ctx.bindName field code = .ok (placeholder, ctx') → I ctx'
  bindValue {ctx ctx' : Context} {value : AttributeValue} {bound : BoundValue} : I ctx →
    ctx.bindValue value = .ok (bound, ctx') → I ctx'

/-- An invariant that the reservations of a caller's text keep. -/
structure Admits (I : Context → Prop) (text : Fragment) : Prop where
  reserveName {ctx ctx' : Context} {placeholder field : String} : I ctx →
    placeholder ∈ text.names.keys → ctx.reserveName placeholder field = .ok ctx' → I ctx'
  reserveValue {ctx ctx' : Context} {placeholder : String} {value : AttributeValue} : I ctx →
    placeholder ∈ text.values.keys → ctx.reserveValue placeholder value = .ok ctx' → I ctx'

theorem Linked.bindName {field placeholder : String} {code : Option String} (hI : ctx.Linked)
    (h : ctx.bindName field code = .ok (placeholder, ctx')) : ctx'.Linked := by
  rcases bindName_cases h with ⟨-, rfl⟩ | ⟨hfield, hplaceholder, -, position, rfl⟩
  · exact hI
  · intro other p hp
    change (ctx.names.insert field placeholder).get? other = some p at hp
    change (ctx.owners.insert placeholder field).get? p = some other
    -- The new pair is linked, and the placeholder was free, so the old pairs stay linked.
    rw [Dict.get?_insert] at hp
    split at hp
    · next heq =>
      cases hp
      rw [Dict.get?_insert, if_pos rfl, heq]
    · exact get?_insert_of_notMem hplaceholder (hI hp)

theorem Linked.bindValue {value : AttributeValue} {bound : BoundValue} (hI : ctx.Linked)
    (h : ctx.bindValue value = .ok (bound, ctx')) : ctx'.Linked := by
  obtain ⟨-, -, -, position, rfl⟩ := bindValue_cases h
  exact hI

theorem Linked.reserveName {placeholder field : String} (hI : ctx.Linked)
    (h : ctx.reserveName placeholder field = .ok ctx') : ctx'.Linked := by
  rcases reserveName_cases h with rfl | ⟨hfree, rfl⟩
  · exact hI
  · intro other p hp
    rw [names_reserve] at hp
    -- A field that has a placeholder keeps it; the reserved one then has an owner and no more.
    rcases Option.or_eq_some_iff.mp hp with hp | ⟨-, hp⟩
    · exact get?_insert_of_notMem hfree (hI hp)
    · split at hp
      · next heq =>
        cases hp
        rw [owners_reserve, if_pos rfl, heq]
      · cases hp

theorem Linked.reserveValue {placeholder : String} {value : AttributeValue} (hI : ctx.Linked)
    (h : ctx.reserveValue placeholder value = .ok ctx') : ctx'.Linked := by
  rcases reserveValue_cases h with rfl | ⟨-, rfl⟩
  · exact hI
  · exact hI

theorem linked_fresh (alphabet : String) : (fresh alphabet).Linked := nofun

/-- Every binding keeps a context linked, and so does every reservation. -/
theorem stable_linked : Stable fun ctx => ctx.Linked where
  linked h := h
  bindName h _ := Linked.bindName h
  bindValue h := Linked.bindValue h

theorem admits_linked (text : Fragment) : Admits (fun ctx => ctx.Linked) text where
  reserveName h _ := Linked.reserveName h
  reserveValue h _ := Linked.reserveValue h

theorem Interned.bindName {field placeholder : String} {code : Option String} (hI : ctx.Interned)
    (h : ctx.bindName field code = .ok (placeholder, ctx')) : ctx'.Interned := by
  rcases bindName_cases h with ⟨-, rfl⟩ | ⟨hfield, hplaceholder, -, position, rfl⟩
  · exact hI
  · intro p other hp
    change (ctx.owners.insert placeholder field).get? p = some other at hp
    change (ctx.names.insert field placeholder).get? other = some p
    rw [Dict.get?_insert] at hp
    split at hp
    · next heq =>
      cases hp
      rw [Dict.get?_insert, if_pos rfl, heq]
    · exact get?_insert_of_notMem hfield (hI hp)

theorem Interned.bindValue {value : AttributeValue} {bound : BoundValue} (hI : ctx.Interned)
    (h : ctx.bindValue value = .ok (bound, ctx')) : ctx'.Interned := by
  obtain ⟨-, -, -, position, rfl⟩ := bindValue_cases h
  exact hI

namespace Formed

variable {N V : String → Prop}

theorem bindName {field placeholder : String} {code : Option String} (hI : ctx.Formed N V)
    (hN : ∀ token, isToken token → N (namePlaceholder token))
    (hcode : ∀ token ∈ code, isToken token)
    (h : ctx.bindName field code = .ok (placeholder, ctx')) : ctx'.Formed N V := by
  rcases bindName_cases h with ⟨-, rfl⟩ | ⟨-, -, ⟨token, htoken, rfl⟩, position, rfl⟩
  · exact hI
  · refine ⟨fun p hp => ?_, hI.values⟩
    rcases (Dict.mem_keys_insert ..).mp hp with rfl | hp
    · exact hN token (htoken.elim (hcode token) id)
    · exact hI.owners p hp

theorem bindValue {value : AttributeValue} {bound : BoundValue} (hI : ctx.Formed N V)
    (hV : ∀ token, isToken token → V (valuePlaceholder token))
    (h : ctx.bindValue value = .ok (bound, ctx')) : ctx'.Formed N V := by
  obtain ⟨-, -, ⟨token, htoken, hplaceholder⟩, position, rfl⟩ := bindValue_cases h
  refine ⟨hI.owners, fun p hp => ?_⟩
  rcases (Dict.mem_keys_insert ..).mp hp with rfl | hp
  · exact hplaceholder ▸ hV token htoken
  · exact hI.values p hp

theorem reserveName {placeholder field : String} (hI : ctx.Formed N V) (hN : N placeholder)
    (h : ctx.reserveName placeholder field = .ok ctx') : ctx'.Formed N V := by
  rcases reserveName_cases h with rfl | ⟨-, rfl⟩
  · exact hI
  · refine ⟨fun p hp => ?_, hI.values⟩
    rcases (Dict.mem_keys_insert ..).mp hp with rfl | hp
    · exact hN
    · exact hI.owners p hp

theorem reserveValue {placeholder : String} {value : AttributeValue} (hI : ctx.Formed N V)
    (hV : V placeholder) (h : ctx.reserveValue placeholder value = .ok ctx') :
    ctx'.Formed N V := by
  rcases reserveValue_cases h with rfl | ⟨-, rfl⟩
  · exact hI
  · refine ⟨hI.owners, fun p hp => ?_⟩
    rcases (Dict.mem_keys_insert ..).mp hp with rfl | hp
    · exact hV
    · exact hI.values p hp

end Formed

end Context

end DocExpr
