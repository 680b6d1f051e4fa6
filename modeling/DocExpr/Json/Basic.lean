/-!
# JSON trees

A JSON text as a tree that keeps its members in the order of the text, repeated ones included.

A reader of values reports the first problem that it meets in the order of the text, be it a value
of the wrong shape or a place where the text stops being JSON.  So the tree covers damaged texts
too: it holds what was read before the damage, and marks where the damage is.  `Json.isIntact` says
that there is none; an undamaged tree is an ordinary JSON value.

## Main definitions

* `Json`, `JsonItems`, `JsonMembers`: the tree.
* `Json.isIntact`: whether the text was JSON throughout, whatever its nesting.
* `JsonItems.ofList`, `JsonMembers.ofList`: closed arrays and objects.
-/

namespace DocExpr

mutual

/-- A JSON value, or what is left of one. -/
inductive Json where
  | null
  | bool (flag : Bool)
  /-- The digits as they stand in the text. -/
  | number (literal : String)
  | string (text : String)
  | array (items : JsonItems)
  | object (members : JsonMembers)
  /-- A well-delimited string with an escape that names no character. -/
  | illegible
  /-- An array or object that is nested deeper than a decoder goes. -/
  | deep (inner : Json)
  /-- The text stops being JSON here. -/
  | broken

/-- The items of an array. -/
inductive JsonItems where
  /-- The closing bracket. -/
  | close
  /-- The text stops being an array here. -/
  | cut
  | cons (head : Json) (tail : JsonItems)

/-- The members of an object; a name may be illegible. -/
inductive JsonMembers where
  /-- The closing brace. -/
  | close
  /-- The text stops being an object here. -/
  | cut
  | cons (name : Option String) (value : Json) (tail : JsonMembers)

end

deriving instance DecidableEq, Repr, Inhabited for Json, JsonItems, JsonMembers

mutual

/-- Whether the text of the value was JSON to its end.  Illegible strings and deep nesting count as
JSON: a value that nobody decodes may have them. -/
def Json.isIntact : Json → Bool
  | .broken => false
  | .array items => items.isIntact
  | .object members => members.isIntact
  | .deep inner => inner.isIntact
  | _ => true

def JsonItems.isIntact : JsonItems → Bool
  | .close => true
  | .cut => false
  | .cons head tail => head.isIntact && tail.isIntact

def JsonMembers.isIntact : JsonMembers → Bool
  | .close => true
  | .cut => false
  | .cons _ value tail => value.isIntact && tail.isIntact

end

/-- A closed array of some items. -/
def JsonItems.ofList : List Json → JsonItems
  | [] => .close
  | item :: rest => .cons item (ofList rest)

/-- A closed object of some members. -/
def JsonMembers.ofList : List (String × Json) → JsonMembers
  | [] => .close
  | (name, value) :: rest => .cons (some name) value (ofList rest)

namespace Json

/-- The array of some items. -/
def ofItems (items : List Json) : Json := .array (.ofList items)

/-- The object of some members. -/
def ofMembers (members : List (String × Json)) : Json := .object (.ofList members)

end Json

end DocExpr
