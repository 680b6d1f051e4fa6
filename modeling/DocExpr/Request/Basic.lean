import DocExpr.Attribute.Value
import DocExpr.Operation

/-!
# Requests

What is sent to a store: one structure for each operation.  A part that an operation may leave out
is optional; expression maps are empty when no expression uses them.
-/

namespace DocExpr

/-- Asks for the item with a key. -/
structure GetRequest where
  table : String
  key : Item
  consistentRead : Option Bool := none
  projection : Option String := none
  names : Dict String := ∅
  deriving Repr, Inhabited

/-- Stores an item. -/
structure PutRequest where
  table : String
  item : Item
  condition : Option String := none
  names : Dict String := ∅
  values : Dict AttributeValue := ∅
  deriving Repr, Inhabited

/-- Changes the item with a key. -/
structure UpdateRequest where
  table : String
  key : Item
  update : Option String := none
  condition : Option String := none
  names : Dict String := ∅
  values : Dict AttributeValue := ∅
  deriving Repr, Inhabited

/-- Deletes the item with a key. -/
structure DeleteRequest where
  table : String
  key : Item
  condition : Option String := none
  names : Dict String := ∅
  values : Dict AttributeValue := ∅
  deriving Repr, Inhabited

/-- Asks for the items under a key, in the order of an index. -/
structure QueryRequest where
  table : String
  index : Option String := none
  keyCondition : Option String := none
  filter : Option String := none
  projection : Option String := none
  names : Dict String := ∅
  values : Dict AttributeValue := ∅
  /-- Whether the items come in ascending order. -/
  forward : Option Bool := none
  limit : Option Int := none
  consistentRead : Option Bool := none
  deriving Repr, Inhabited

/-- Asks for all items of a table. -/
structure ScanRequest where
  table : String
  index : Option String := none
  filter : Option String := none
  projection : Option String := none
  names : Dict String := ∅
  values : Dict AttributeValue := ∅
  limit : Option Int := none
  consistentRead : Option Bool := none
  deriving Repr, Inhabited

/-- A request for one of the operations. -/
inductive Request where
  | getItem (request : GetRequest)
  | putItem (request : PutRequest)
  | updateItem (request : UpdateRequest)
  | deleteItem (request : DeleteRequest)
  | query (request : QueryRequest)
  | scan (request : ScanRequest)
  deriving Repr

namespace Request

def operation : Request → Operation
  | getItem _ => .getItem
  | putItem _ => .putItem
  | updateItem _ => .updateItem
  | deleteItem _ => .deleteItem
  | query _ => .query
  | scan _ => .scan

/-- The table that a request is about. -/
def table : Request → String
  | getItem request => request.table
  | putItem request => request.table
  | updateItem request => request.table
  | deleteItem request => request.table
  | query request => request.table
  | scan request => request.table

end Request

end DocExpr
