import DocExpr.Attribute.Value
import DocExpr.Base64
import DocExpr.Json.Decode
import DocExpr.Json.Writer

/-!
# Attribute values as JSON

A value is an object with one member, whose name is the tag of the value's type.  Numerals are
strings and are not looked into; bytes are base64 text.

A decoder meets the tag before the value it belongs to, so an unknown tag is reported as such
whatever follows it, and a second member is met only after the value of the first.
-/

namespace DocExpr.AttributeValue

/-- The object whose only member is named by the tag of a type. -/
def tagged (type : AttributeType) (payload : Json) : Json :=
  .object (.cons (some type.tag) payload .close)

mutual

/-- The JSON form of a value. -/
def toJson : AttributeValue → Json
  | string text => tagged .string (.string text)
  | number numeral => tagged .number (.string numeral)
  | binary bytes => tagged .binary (.string (Base64.encode bytes))
  | stringSet members => tagged .stringSet (.ofItems (members.map .string))
  | numberSet members => tagged .numberSet (.ofItems (members.map .string))
  | binarySet members => tagged .binarySet (.ofItems (members.map (.string ∘ Base64.encode)))
  | bool flag => tagged .bool (.bool flag)
  | null flag => tagged .null (.bool flag)
  | list items => tagged .list (.array (itemsToJson items))
  | map entries => tagged .map (.object (entriesToJson entries))

def itemsToJson : List AttributeValue → JsonItems
  | [] => .close
  | item :: rest => .cons (toJson item) (itemsToJson rest)

def entriesToJson : List (String × AttributeValue) → JsonMembers
  | [] => .close
  | (name, value) :: rest => .cons (some name) (toJson value) (entriesToJson rest)

end

/-- The bytes that a base64 text writes. -/
def decodeBytes (s : String) : Except DecodeError (List UInt8) :=
  match Base64.decode? s with
  | some bytes => .ok bytes
  | none => .error .malformed

mutual

/-- The value that a JSON form writes. -/
def ofJson : Json → Except DecodeError AttributeValue
  | .object .close => .error .untagged
  | .object (.cons (some name) payload tail) =>
    match AttributeType.ofTag? name with
    | none => .error (.unknownTag name)
    | some type => do
      let value ← ofPayload type payload
      match tail with
      | .close => return value
      | _ => throw .malformed
  | _ => .error .malformed

/-- The value of a type that the member named by its tag writes. -/
def ofPayload : AttributeType → Json → Except DecodeError AttributeValue
  | .string, .string text => .ok (string text)
  | .number, .string text => .ok (number text)
  | .binary, .string text => binary <$> decodeBytes text
  | .stringSet, .array items => stringSet <$> items.texts?
  | .numberSet, .array items => numberSet <$> items.texts?
  | .binarySet, .array items => do
    let texts ← items.texts?
    binarySet <$> texts.mapM decodeBytes
  | .bool, .bool flag => .ok (bool flag)
  | .null, .bool flag => .ok (null flag)
  | .list, .array items => list <$> itemsOfJson items
  | .map, .object members => map <$> entriesOfJson members []
  | _, _ => .error .malformed

def itemsOfJson : JsonItems → Except DecodeError (List AttributeValue)
  | .close => .ok []
  | .cut => .error .malformed
  | .cons head tail => do
    let item ← ofJson head
    let items ← itemsOfJson tail
    return item :: items

/-- The entries of a map: of two members with one name the later one counts. -/
def entriesOfJson : JsonMembers → Entries AttributeValue →
    Except DecodeError (Entries AttributeValue)
  | .close, entries => .ok entries
  | .cut, _ => .error .malformed
  | .cons none _ _, _ => .error .malformed
  | .cons (some name) json tail, entries => do
    let value ← ofJson json
    entriesOfJson tail (entries.set name value)

end

end DocExpr.AttributeValue

namespace DocExpr.Item

/-- The JSON form of an item. -/
def toJson (item : Item) : Json := .object (AttributeValue.entriesToJson item.entries)

/-- The item that an object writes. -/
def ofJson : Json → Except DecodeError Item
  | .object members => Dict.ofList <$> AttributeValue.entriesOfJson members []
  | _ => .error .malformed

end DocExpr.Item
