import DocExpr.Fragment
import DocExpr.Path.Basic
import DocExpr.Placeholder.Context

/-!
# Resolving paths

A path is walked through the schema: each name has to be declared by the entity reached so far, and
an ordinal has to follow a list, or an element about which nothing is known.  The walk yields the
declared fields along the path, in order, and the place where it ends; then the names are bound.

## Main definitions

* `Place`: what the schema knows of a place inside an item.
* `Family.walk`: the declarations along the segments of a path, and the place they lead to.
* `Path.resolve`: the text of a path with its placeholders, and what the schema says about it.
-/

namespace DocExpr

variable {n : Nat}

/-- What the schema knows of a place inside an item. -/
inductive Place (n : Nat) where
  /-- The item itself, which keeps an entity. -/
  | root (of : Fin n)
  /-- A nested entity. -/
  | entity (of : Fin n)
  | entityList (field : String) (of : Fin n)
  | scalar (field : String) (type : AttributeType)
  /-- Inside a list of scalars; `owner` is the last field on the way. -/
  | inside (owner : String)
  deriving DecidableEq, Repr

namespace Place

/-- The place of a field. -/
def ofField (field : Field n) : Place n :=
  match field.kind with
  | .scalar type _ => .scalar field.name type.attributeType
  | .entity of => .entity of
  | .entityList of => .entityList field.name of

/-- The type of the values at a place, if it is known. -/
def type? : Place n → Option AttributeType
  | root _ | inside _ => none
  | entity _ => some .map
  | entityList .. => some .list
  | scalar _ type => some type

/-- The entity at a place. -/
def entity? : Place n → Option (Fin n)
  | root of | entity of => some of
  | _ => none

/-- What messages name as the owner of an unknown field at a place. -/
def owner (family : Family n) : Place n → String
  | root of | entity of => (family of).entity
  | entityList field _ | scalar field _ | inside field => field

/-- The place of the elements of a list. -/
def element? (family : Family n) : Place n → Option (Place n)
  | root of => some (.inside (family of).entity)
  | entityList _ of => some (.entity of)
  | scalar field .list => some (.inside field)
  | inside owner => some (.inside owner)
  | entity _ | scalar .. => none

end Place

/-- The declarations along some segments, and the place they lead to.  `literal` is the whole path,
for messages. -/
def Family.walk (family : Family n) (literal : String) (place : Place n) :
    List Segment → Except ExpressionError (List (Field n) × Place n)
  | [] => .ok ([], place)
  | .field name :: rest =>
    match place.entity?.bind fun of => (family of).field? name with
    | none => .error (.unknownField name (place.owner family))
    | some field => do
      let (fields, final) ← family.walk literal (.ofField field) rest
      return (field :: fields, final)
  | .index ordinal :: rest =>
    match place.element? family with
    | none => .error (.invalidPath (.elementOfNonList ordinal literal))
    | some element => family.walk literal element rest

/-- A path as it stands in an expression. -/
structure ResolvedPath where
  path : Path
  /-- The text with the placeholders of the names. -/
  fragment : Fragment
  /-- The text with the names themselves. -/
  literal : String
  /-- The type of the values at the path, if the schema knows it. -/
  type? : Option AttributeType
  /-- Whether the path starts at a field of the key. -/
  rootIsKey : Bool
  deriving Repr

/-- Binds the names of some fields in order; the field of each placeholder. -/
def bindFields : List (Field n) → Dict String → Compile (Dict String)
  | [], names => return names
  | field :: rest, names => do
    let placeholder ← Compile.bindName field.name field.code
    bindFields rest (names.insert placeholder field.name)

/-- The path as it stands in an expression about an entity. -/
def Path.resolve (family : Family n) (of : Fin n) (path : Path) : Compile ResolvedPath := do
  let literal ← Compile.ofExcept path.literal
  let (fields, place) ← Compile.ofExcept (family.walk literal (.root of) path.segments)
  let names ← bindFields fields ∅
  let text ← Compile.ofExcept (path.withNames (← get).names)
  return {
    path
    fragment := { text, names }
    literal
    type? := place.type?
    rootIsKey := (fields.head?.map Field.isKey).getD false }

/-- Binds a value that stands beside a path: unless it is null, it has to be of the path's type. -/
def ResolvedPath.bindOperand (path : ResolvedPath) (value : AttributeValue) : Compile BoundValue :=
  match path.type? with
  | none => Compile.bindValue value
  | some expected =>
    if value.isNull || value.type = expected then Compile.bindValue value
    else throw (.typeMismatch path.literal expected value.type)

end DocExpr
