import DocExpr.Attribute.Value
import DocExpr.Numeric.Shortest
import DocExpr.Ordered

/-!
# Scalar fields

The types of the fields that hold no entity, their values, and the rule by which each type is kept
in an attribute value.  Every number is kept as text; a list of strings is a list, whereas sets of
strings and of integers have attribute types of their own and are ordered.

## Main definitions

* `ScalarType.encode`: the attribute value that keeps a value.
* `ScalarType.decode`: the value that an attribute value keeps, or why it is not of the type.
-/

namespace DocExpr

inductive ScalarType where
  | string
  | bool
  | integer (type : IntegerType)
  | float (format : FloatFormat)
  | strings
  | stringSet
  | integerSet
  | bytes
  deriving DecidableEq, Repr

/-- A value of a scalar field.  Sets are ascending lists. -/
inductive ScalarValue where
  | string (text : String)
  | bool (flag : Bool)
  | integer (value : Int)
  | float (format : FloatFormat) (value : Binary)
  | strings (items : List String)
  | stringSet (members : List String)
  | integerSet (members : List Int)
  | bytes (content : List UInt8)
  deriving DecidableEq, Repr

/-- Why an attribute value does not keep a value of a type. -/
inductive CodecError where
  | typeMismatch (expected actual : AttributeType)
  | invalidNumber (numeral : String)
  deriving DecidableEq, Repr

def CodecError.message : CodecError → String
  | typeMismatch expected actual =>
    "expected " ++ expected.tag ++ " attribute, found " ++ actual.tag
  | invalidNumber numeral => "invalid number '" ++ numeral ++ "'"

/-- The attribute value that keeps a scalar. -/
def ScalarValue.encode : ScalarValue → AttributeValue
  | string text => .string text
  | bool flag => .bool flag
  | integer value => .number (toString value)
  | float format value => .number (format.text value)
  | strings items => .list (items.map .string)
  | stringSet members => .stringSet members
  | integerSet members => .numberSet (members.map toString)
  | bytes content => .binary content

namespace ScalarType

/-- The type of the attribute values that keep values of a scalar type. -/
def attributeType : ScalarType → AttributeType
  | string => .string
  | bool => .bool
  | integer _ | float _ => .number
  | strings => .list
  | stringSet => .stringSet
  | integerSet => .numberSet
  | bytes => .binary

/-- What a field holds that was never given a value. -/
def default : ScalarType → ScalarValue
  | string => .string ""
  | bool => .bool false
  | integer _ => .integer 0
  | float format => .float format (format.zero false)
  | strings => .strings []
  | stringSet => .stringSet []
  | integerSet => .integerSet []
  | bytes => .bytes []

/-- The integer that a numeral writes. -/
def decodeInteger (type : IntegerType) (numeral : String) : Except CodecError Int :=
  match type.read? numeral with
  | some value => .ok value
  | none => .error (.invalidNumber numeral)

/-- The float that a numeral writes. -/
def decodeFloat (format : FloatFormat) (numeral : String) : Except CodecError Binary :=
  match format.read? numeral with
  | some value => .ok value
  | none => .error (.invalidNumber numeral)

/-- The text that a string value keeps. -/
def decodeString : AttributeValue → Except CodecError String
  | .string text => .ok text
  | value => .error (.typeMismatch .string value.type)

/-- The value of a scalar type that an attribute value keeps. -/
def decode : ScalarType → AttributeValue → Except CodecError ScalarValue
  | string, .string text => .ok (.string text)
  | bool, .bool flag => .ok (.bool flag)
  | integer type, .number numeral => .integer <$> decodeInteger type numeral
  | float format, .number numeral => .float format <$> decodeFloat format numeral
  | strings, .list items => .strings <$> items.mapM decodeString
  | stringSet, .stringSet members => .ok (.stringSet (Ordered.ofList members))
  | integerSet, .numberSet members => do
    let values ← members.mapM (decodeInteger .int64)
    return .integerSet (Ordered.ofList values)
  | bytes, .binary content => .ok (.bytes content)
  | type, value => .error (.typeMismatch type.attributeType value.type)

end ScalarType

end DocExpr
