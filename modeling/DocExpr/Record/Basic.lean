import DocExpr.Schema.Registry

/-!
# Records

A record is an entity in memory: the value of each declared field, by name and in the order of the
declarations.  An optional field or a nested entity may be absent; every other field starts from a
default.
-/

namespace DocExpr

/-- The value of a field. -/
inductive FieldValue where
  | absent
  | scalar (value : ScalarValue)
  | entity (fields : List (String × FieldValue))
  | entities (elements : List (List (String × FieldValue)))
  deriving Repr, Inhabited

/-- The values of the fields of an entity. -/
abbrev Record := Entries FieldValue

/-- Why a record and an item do not correspond.  The path to the trouble is told from the outside
in. -/
inductive MappingError where
  | field (name : String) (cause : CodecError)
  | nested (name : String) (cause : MappingError)
  deriving DecidableEq, Repr

def MappingError.message : MappingError → String
  | field name cause => "field '" ++ name ++ "': " ++ cause.message
  | nested name cause => "field '" ++ name ++ "': " ++ cause.message

/-- How messages name the element of a list field. -/
def elementName (name : String) (index : Nat) : String :=
  name ++ "[" ++ toString index ++ "]"

variable {n : Nat}

/-- What a field holds that was never given a value. -/
def FieldKind.default : FieldKind n → FieldValue
  | scalar type optional => if optional then .absent else .scalar type.default
  | entity _ => .absent
  | entityList _ => .entities []

/-- The record whose fields were never given a value. -/
def Registry.default (registry : Registry n) : Record :=
  registry.fields.map fun field => (field.name, field.kind.default)

end DocExpr
