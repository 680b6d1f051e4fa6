import DocExpr.Attribute.Type
import DocExpr.Dict
import DocExpr.Numeric.Binary
import DocExpr.Text.Quoted

/-!
# Attribute values

The values that a store keeps.  Numbers are kept as the text that was given, so a value may hold a
numeral that stands for no finite number; `AttributeValue.invalidNumber?` finds the first.

## Main definitions

* `AttributeValue`, and the item it is part of, a dictionary of attribute values.
* `AttributeValue.WellFormed`: the names inside every map are distinct.
* `AttributeValue.same`: equality up to the order of the entries of maps.
* `AttributeValue.summary`: the short form that stands in messages.
-/

namespace DocExpr

/-- A value of one of the ten types.  The entries of a map have distinct names. -/
inductive AttributeValue where
  | string (text : String)
  | number (numeral : String)
  | binary (bytes : List UInt8)
  | stringSet (members : List String)
  | numberSet (members : List String)
  | binarySet (members : List (List UInt8))
  | bool (flag : Bool)
  | null (flag : Bool)
  | list (items : List AttributeValue)
  | map (entries : List (String × AttributeValue))
  deriving Repr, Inhabited

/-- Attribute values by attribute name. -/
abbrev Item := Dict AttributeValue

namespace AttributeValue

/-- The type of a value. -/
def type : AttributeValue → AttributeType
  | string _ => .string
  | number _ => .number
  | binary _ => .binary
  | stringSet _ => .stringSet
  | numberSet _ => .numberSet
  | binarySet _ => .binarySet
  | bool _ => .bool
  | null _ => .null
  | list _ => .list
  | map _ => .map

/-- The value that stands for absence. -/
def isNull : AttributeValue → Bool
  | null true => true
  | _ => false

/-- An item as a value. -/
def ofItem (item : Item) : AttributeValue := .map item.entries

mutual

/-- The first numeral inside a value that stands for no finite number. -/
def invalidNumber? : AttributeValue → Option String
  | number numeral => if isFiniteNumeral numeral then none else some numeral
  | numberSet members => members.find? fun numeral => !isFiniteNumeral numeral
  | list items => invalidNumberIn? items
  | map entries => invalidNumberAmong? entries
  | _ => none

/-- The first such numeral inside the items of a list. -/
def invalidNumberIn? : List AttributeValue → Option String
  | [] => none
  | item :: rest => (invalidNumber? item).or (invalidNumberIn? rest)

/-- The first such numeral inside the entries of a map. -/
def invalidNumberAmong? : List (String × AttributeValue) → Option String
  | [] => none
  | (_, value) :: rest => (invalidNumber? value).or (invalidNumberAmong? rest)

end

mutual

/-- The names inside every map of a value are distinct. -/
def WellFormed : AttributeValue → Prop
  | list items => WellFormedItems items
  | map entries => (Entries.keys entries).Nodup ∧ WellFormedEntries entries
  | _ => True

def WellFormedItems : List AttributeValue → Prop
  | [] => True
  | item :: rest => WellFormed item ∧ WellFormedItems rest

def WellFormedEntries : List (String × AttributeValue) → Prop
  | [] => True
  | (_, value) :: rest => WellFormed value ∧ WellFormedEntries rest

end

mutual

/-- Equality of values, for which the order of the entries of a map does not matter. -/
def same : AttributeValue → AttributeValue → Bool
  | string a, string b => a = b
  | number a, number b => a = b
  | binary a, binary b => a = b
  | stringSet a, stringSet b => a = b
  | numberSet a, numberSet b => a = b
  | binarySet a, binarySet b => a = b
  | bool a, bool b => a = b
  | null a, null b => a = b
  | list a, list b => sameItems a b
  | map a, map b => a.length = b.length && sameEntries a b
  | _, _ => false

def sameItems : List AttributeValue → List AttributeValue → Bool
  | [], [] => true
  | a :: as, b :: bs => same a b && sameItems as bs
  | _, _ => false

/-- Whether every entry of the first list has an equal value in the second. -/
def sameEntries : List (String × AttributeValue) → List (String × AttributeValue) → Bool
  | [], _ => true
  | (name, value) :: rest, others =>
    (match Entries.get? others name with
      | some other => same value other
      | none => false) && sameEntries rest others

end

/-- A value in a message: scalars in full, sets quoted, bytes and collections by their size. -/
def summary (value : AttributeValue) : String :=
  let inside := match value with
    | string text => text
    | number numeral => numeral
    | binary bytes => toString bytes.length ++ " bytes"
    | stringSet members | numberSet members => Text.quoteList members
    | binarySet members => toString members.length ++ " items"
    | bool flag | null flag => toString flag
    | list items => toString items.length ++ " items"
    | map entries => toString entries.length ++ " keys"
  "\x7b" ++ value.type.tag ++ ": " ++ inside ++ "\x7d"

end AttributeValue

end DocExpr
