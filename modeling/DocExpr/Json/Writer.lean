import DocExpr.Json.Basic
import DocExpr.Json.Text

/-!
# Writing JSON

The text of a tree, without blanks.  A damaged tree is written as far as it was read.
-/

namespace DocExpr

mutual

/-- The characters of a value. -/
def Json.chars : Json → List Char
  | .null => ['n', 'u', 'l', 'l']
  | .bool true => ['t', 'r', 'u', 'e']
  | .bool false => ['f', 'a', 'l', 's', 'e']
  | .number literal => literal.toList
  | .string text => JsonText.write text
  | .array items => '[' :: items.chars
  | .object members => '\x7b' :: members.chars
  | .illegible => ['"', '\\', 'u', 'd', '8', '0', '0', '"']
  | .deep inner => inner.chars
  | .broken => []

/-- The characters of an array after its opening bracket. -/
def JsonItems.chars : JsonItems → List Char
  | .close => [']']
  | .cut => []
  | .cons head .close => head.chars ++ [']']
  | .cons head tail => head.chars ++ ',' :: tail.chars

/-- The characters of an object after its opening brace. -/
def JsonMembers.chars : JsonMembers → List Char
  | .close => ['\x7d']
  | .cut => []
  | .cons name value .close => JsonText.write (name.getD "") ++ ':' :: value.chars ++ ['\x7d']
  | .cons name value tail =>
    JsonText.write (name.getD "") ++ ':' :: value.chars ++ ',' :: tail.chars

end

/-- The text of a value. -/
def Json.render (json : Json) : String := String.ofList json.chars

end DocExpr
