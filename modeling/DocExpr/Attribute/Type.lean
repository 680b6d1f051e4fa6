/-!
# Attribute types

The ten types of an attribute value, and the tag by which each of them is known on the wire.  Tags
are told apart by case.
-/

namespace DocExpr

inductive AttributeType where
  | string
  | number
  | binary
  | stringSet
  | numberSet
  | binarySet
  | bool
  | null
  | list
  | map
  deriving DecidableEq, Repr, Inhabited

namespace AttributeType

/-- The name of a type on the wire. -/
def tag : AttributeType → String
  | string => "S"
  | number => "N"
  | binary => "B"
  | stringSet => "SS"
  | numberSet => "NS"
  | binarySet => "BS"
  | bool => "BOOL"
  | null => "NULL"
  | list => "L"
  | map => "M"

/-- Every type, in the order in which messages list them. -/
def all : List AttributeType :=
  [string, number, binary, stringSet, numberSet, binarySet, bool, null, list, map]

/-- The type with a tag. -/
def ofTag? (s : String) : Option AttributeType := all.find? fun t => t.tag = s

/-- A tag names its own type and no other. -/
theorem ofTag?_tag (t : AttributeType) : ofTag? t.tag = some t := by
  cases t <;> rfl

theorem tag_of_ofTag? {s : String} {t : AttributeType} (h : ofTag? s = some t) : t.tag = s := by
  simpa using List.find?_some h

end AttributeType

end DocExpr
