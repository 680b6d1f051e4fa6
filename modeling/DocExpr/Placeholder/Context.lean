import DocExpr.Error

/-!
# The placeholders of a request

All expressions of one request share their placeholders.  A context remembers which placeholder
each field has, which field each name placeholder belongs to, and what each value placeholder
stands for.  A field has one placeholder throughout; a value gets a new one each time it is bound.
Placeholders written by the caller are reserved, so that minted ones keep clear of them.

A step either fails, and the context stays as it was, or yields the context after it.

## Main definitions

* `Context.bindName`, `Context.bindValue`: the placeholder of a field, and a fresh one of a value.
* `Context.reserveName`, `Context.reserveValue`: take up a placeholder that the caller chose.
* `Compile`: a computation that goes through such steps and may fail on the way; what it bound
  before it failed stays bound.
-/

namespace DocExpr

/-- The placeholder of a field with a token. -/
def namePlaceholder (token : String) : String := "#" ++ token

/-- The placeholder of a value with a token. -/
def valuePlaceholder (token : String) : String := ":" ++ token

/-- The least number from `k` on that is not taken; `fuel` bounds the numbers that are looked at and
may be as small as the count of the taken ones. -/
def firstFree (taken : Nat → Bool) : (fuel k : Nat) → Nat
  | 0, k => k
  | fuel + 1, k => if taken k then firstFree taken fuel (k + 1) else k

/-- A value and the placeholder that stands for it. -/
structure BoundValue where
  placeholder : String
  value : AttributeValue
  deriving Repr

/-- What the expressions of a request have bound so far. -/
structure Context where
  /-- The symbols of minted codes, as they were configured. -/
  symbols : List Char
  /-- The number from which the next code is looked for. -/
  position : Nat := 0
  /-- The placeholder of each field. -/
  names : Dict String := ∅
  /-- The field of each name placeholder. -/
  owners : Dict String := ∅
  /-- The value of each value placeholder. -/
  values : Dict AttributeValue := ∅

namespace Context

/-- A context that has bound nothing. -/
def fresh (alphabet : String) : Context := { symbols := alphabet.toList }

/-- The next code, whatever is bound, and the context after it. -/
def nextCode (ctx : Context) : Except ExpressionError (String × Context) :=
  match Alphabet.ofSymbols ctx.symbols with
  | .error fault => .error (.allocation fault)
  | .ok alphabet =>
    .ok (alphabet.code ctx.position, { ctx with position := ctx.position + 1 })

/-- The first placeholder, from the position of the context on, that is no key of a dictionary. -/
def mint {α : Type} (ctx : Context) (placeholder : String → String) (taken : Dict α) :
    Except ExpressionError (String × Context) :=
  match Alphabet.ofSymbols ctx.symbols with
  | .error fault => .error (.allocation fault)
  | .ok alphabet =>
    let k := firstFree (fun k => taken.contains (placeholder (alphabet.code k))) taken.size
      ctx.position
    .ok (placeholder (alphabet.code k), { ctx with position := k + 1 })

/-- Gives a field a placeholder. -/
def assign (ctx : Context) (placeholder field : String) : Context :=
  { ctx with
    names := ctx.names.insert field placeholder
    owners := ctx.owners.insert placeholder field }

/-- The placeholder of a field: the one that it has, else its short code if that is free, else a
minted one. -/
def bindName (ctx : Context) (field : String) (code : Option String) :
    Except ExpressionError (String × Context) :=
  match ctx.names.get? field with
  | some placeholder => .ok (placeholder, ctx)
  | none =>
    match (code.map namePlaceholder).filter fun placeholder => !ctx.owners.contains placeholder with
    | some placeholder => .ok (placeholder, ctx.assign placeholder field)
    | none =>
      match ctx.mint namePlaceholder ctx.owners with
      | .error e => .error e
      | .ok (placeholder, ctx) => .ok (placeholder, ctx.assign placeholder field)

/-- A fresh placeholder for a value, whose numbers have to be finite. -/
def bindValue (ctx : Context) (value : AttributeValue) :
    Except ExpressionError (BoundValue × Context) :=
  match value.invalidNumber? with
  | some numeral => .error (.invalidNumber numeral)
  | none =>
    match ctx.mint valuePlaceholder ctx.values with
    | .error e => .error e
    | .ok (placeholder, ctx) =>
      .ok (⟨placeholder, value⟩, { ctx with values := ctx.values.insert placeholder value })

/-- Takes up a placeholder that the caller chose for a field.  The field keeps the placeholder that
it has, if it has one. -/
def reserveName (ctx : Context) (placeholder field : String) : Except ExpressionError Context :=
  match ctx.owners.get? placeholder with
  | some owner =>
    if owner = field then .ok ctx else .error (.placeholderConflict placeholder .name)
  | none =>
    .ok { ctx with
      owners := ctx.owners.insert placeholder field
      names :=
        if ctx.names.contains field then ctx.names else ctx.names.insert field placeholder }

/-- Takes up a placeholder that the caller chose for a value. -/
def reserveValue (ctx : Context) (placeholder : String) (value : AttributeValue) :
    Except ExpressionError Context :=
  match value.invalidNumber? with
  | some numeral => .error (.invalidNumber numeral)
  | none =>
    match ctx.values.get? placeholder with
    | some bound =>
      if bound.same value then .ok ctx else .error (.placeholderConflict placeholder .value)
    | none => .ok { ctx with values := ctx.values.insert placeholder value }

end Context

/-- A computation on a context that may fail. -/
abbrev Compile := ExceptT ExpressionError (StateM Context)

namespace Compile

/-- One step: on failure the context stays as it was. -/
def step {α : Type} (f : Context → Except ExpressionError (α × Context)) : Compile α :=
  fun ctx =>
    match f ctx with
    | .ok (result, ctx) => (.ok result, ctx)
    | .error e => (.error e, ctx)

/-- A computation that does not look at the context. -/
def ofExcept {α : Type} (result : Except ExpressionError α) : Compile α := fun ctx => (result, ctx)

/-- The result of a computation on a context, and the context after it. -/
def runOn {α : Type} (computation : Compile α) (ctx : Context) :
    Except ExpressionError α × Context := computation ctx

@[simp] theorem runOn_pure {α : Type} (a : α) (ctx : Context) :
    (pure a : Compile α).runOn ctx = (.ok a, ctx) := rfl

/-- A computation goes on in the context that the one before it left, unless that one failed. -/
theorem runOn_bind {α β : Type} (first : Compile α) (next : α → Compile β) (ctx : Context) :
    (first >>= next).runOn ctx =
      match first.runOn ctx with
      | (.ok a, ctx) => (next a).runOn ctx
      | (.error e, ctx) => (.error e, ctx) := by
  simp only [runOn, bind, ExceptT.bind, ExceptT.mk, StateT.bind, ExceptT.bindCont]
  rcases first ctx with ⟨_ | _, _⟩ <;> rfl

@[simp] theorem runOn_throw {α : Type} (e : ExpressionError) (ctx : Context) :
    (throw e : Compile α).runOn ctx = (.error e, ctx) := rfl

@[simp] theorem runOn_ofExcept {α : Type} (result : Except ExpressionError α) (ctx : Context) :
    (ofExcept result).runOn ctx = (result, ctx) := rfl

theorem runOn_step {α : Type} (f : Context → Except ExpressionError (α × Context))
    (ctx : Context) :
    (step f).runOn ctx =
      match f ctx with
      | .ok (result, ctx) => (.ok result, ctx)
      | .error e => (.error e, ctx) := rfl

/-- The result of a computation on a fresh context. -/
def runFresh {α : Type} (computation : Compile α) (alphabet : String) :
    Except ExpressionError α := (computation.runOn (.fresh alphabet)).1

def bindName (field : String) (code : Option String) : Compile String :=
  step fun ctx => ctx.bindName field code

def bindValue (value : AttributeValue) : Compile BoundValue := step fun ctx => ctx.bindValue value

def reserveName (placeholder field : String) : Compile Unit :=
  step fun ctx => (ctx.reserveName placeholder field).map ((), ·)

def reserveValue (placeholder : String) (value : AttributeValue) : Compile Unit :=
  step fun ctx => (ctx.reserveValue placeholder value).map ((), ·)

end Compile

end DocExpr
