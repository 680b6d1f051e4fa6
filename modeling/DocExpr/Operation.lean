/-!
# Operations

The operations on items that a request can ask for.  A transport names the operation in a header,
the *target*.
-/

namespace DocExpr

inductive Operation where
  | getItem
  | putItem
  | updateItem
  | deleteItem
  | query
  | scan
  deriving DecidableEq, Repr, Inhabited

namespace Operation

def name : Operation → String
  | getItem => "GetItem"
  | putItem => "PutItem"
  | updateItem => "UpdateItem"
  | deleteItem => "DeleteItem"
  | query => "Query"
  | scan => "Scan"

def all : List Operation := [getItem, putItem, updateItem, deleteItem, query, scan]

/-- The operation with a name. -/
def ofName? (s : String) : Option Operation := all.find? fun operation => operation.name = s

/-- The version of the interface that a target names. -/
def interfaceVersion : String := "DynamoDB_20120810"

/-- The header value that selects the operation. -/
def target (operation : Operation) : String := interfaceVersion ++ "." ++ operation.name

/-- A name stands for its own operation and no other. -/
theorem ofName?_name (operation : Operation) : ofName? operation.name = some operation := by
  cases operation <;> rfl

end Operation

end DocExpr
