import DocExpr.Attribute.Json
import DocExpr.Request.Basic

/-!
# Request bodies

A request is sent as a JSON object.  The operations draw their members from one stock, so a body is
a record of all members, each of which may be missing; an operation says which it knows and in which
order.  A member that is absent is not written, and neither is an empty expression map.

Reading takes the members in any order and ignores unknown ones.  A known member may not occur
twice.  An optional one may be null; an expression map may be missing but not null.  The values may
also come as an array, in the order of the members; then only expression maps may be missing.

## Main definitions

* `Member`, `Operation.members`: the stock of members, and those of an operation in order.
* `Body`: the members that are present.
* `Request.toJson`, `Request.ofJson`: the body of a request, and the request that a body writes.
-/

namespace DocExpr

/-- The members of request bodies. -/
inductive Member where
  | tableName
  | key
  | item
  | indexName
  | keyCondition
  | filter
  | update
  | condition
  | projection
  | names
  | values
  | forward
  | limit
  | consistentRead
  deriving DecidableEq, Repr

namespace Member

def name : Member → String
  | tableName => "TableName"
  | key => "Key"
  | item => "Item"
  | indexName => "IndexName"
  | keyCondition => "KeyConditionExpression"
  | filter => "FilterExpression"
  | update => "UpdateExpression"
  | condition => "ConditionExpression"
  | projection => "ProjectionExpression"
  | names => "ExpressionAttributeNames"
  | values => "ExpressionAttributeValues"
  | forward => "ScanIndexForward"
  | limit => "Limit"
  | consistentRead => "ConsistentRead"

/-- Whether a member is an expression map, which is empty when it is missing. -/
def isExpressionMap : Member → Bool
  | names | values => true
  | _ => false

end Member

/-- The members of an operation, in order. -/
def Operation.members : Operation → List Member
  | getItem => [.tableName, .key, .consistentRead, .projection, .names]
  | putItem => [.tableName, .item, .condition, .names, .values]
  | updateItem => [.tableName, .key, .update, .condition, .names, .values]
  | deleteItem => [.tableName, .key, .condition, .names, .values]
  | query =>
    [.tableName, .indexName, .keyCondition, .filter, .projection, .names, .values, .forward,
      .limit, .consistentRead]
  | scan =>
    [.tableName, .indexName, .filter, .projection, .names, .values, .limit, .consistentRead]

/-- The members that are present in a body. -/
structure Body where
  tableName : Option String := none
  key : Option Item := none
  item : Option Item := none
  indexName : Option String := none
  keyCondition : Option String := none
  filter : Option String := none
  update : Option String := none
  condition : Option String := none
  projection : Option String := none
  names : Option (Dict String) := none
  values : Option (Dict AttributeValue) := none
  forward : Option Bool := none
  limit : Option Int := none
  consistentRead : Option Bool := none
  deriving Repr, Inhabited

namespace Body

/-- A dictionary of strings as an object. -/
def textsToJson (texts : Dict String) : Json :=
  .ofMembers (texts.entries.map fun (name, text) => (name, .string text))

/-- The value of a member, if it is present. -/
def member? (body : Body) : Member → Option Json
  | .tableName => body.tableName.map .string
  | .key => body.key.map Item.toJson
  | .item => body.item.map Item.toJson
  | .indexName => body.indexName.map .string
  | .keyCondition => body.keyCondition.map .string
  | .filter => body.filter.map .string
  | .update => body.update.map .string
  | .condition => body.condition.map .string
  | .projection => body.projection.map .string
  | .names => body.names.map textsToJson
  | .values => body.values.map Item.toJson
  | .forward => body.forward.map .bool
  | .limit => body.limit.map fun limit => .number (toString limit)
  | .consistentRead => body.consistentRead.map .bool

/-- The object of the members that are present. -/
def toJson (body : Body) (members : List Member) : Json :=
  .ofMembers (members.filterMap fun member => (body.member? member).map (member.name, ·))

/-- A value that may be null. -/
def nullable {α : Type} (decode : Json → Except DecodeError α) :
    Json → Except DecodeError (Option α)
  | .null => .ok none
  | json => some <$> decode json

/-- A dictionary of strings. -/
def textsOfJson : Json → Except DecodeError (Dict String)
  | .object members => Dict.ofList <$> members.decodeEntries Json.text? []
  | _ => .error .malformed

/-- A count, which is an integer without fraction or power of ten.  Minus zero is no integer. -/
def countOfJson : Json → Except DecodeError Int
  | .number literal =>
    if literal = "-0" then .error .malformed
    else
      match IntegerType.int32.read? literal with
      | some count => .ok count
      | none => .error .malformed
  | _ => .error .malformed

/-- Takes up the value of a member. -/
def take (body : Body) (member : Member) (json : Json) : Except DecodeError Body :=
  match member with
  | .tableName => do return { body with tableName := some (← json.text?) }
  | .key => do return { body with key := some (← Item.ofJson json) }
  | .item => do return { body with item := some (← Item.ofJson json) }
  | .indexName => do return { body with indexName := ← nullable Json.text? json }
  | .keyCondition => do return { body with keyCondition := ← nullable Json.text? json }
  | .filter => do return { body with filter := ← nullable Json.text? json }
  | .update => do return { body with update := ← nullable Json.text? json }
  | .condition => do return { body with condition := ← nullable Json.text? json }
  | .projection => do return { body with projection := ← nullable Json.text? json }
  | .names => do return { body with names := some (← textsOfJson json) }
  | .values => do return { body with values := some (← Item.ofJson json) }
  | .forward => do return { body with forward := ← nullable Json.flag? json }
  | .limit => do return { body with limit := ← nullable countOfJson json }
  | .consistentRead => do return { body with consistentRead := ← nullable Json.flag? json }

/-- A body and the members that were met, absent ones included. -/
structure Draft where
  seen : List Member := []
  body : Body := {}

/-- What a known member of an object does with its value; none may occur twice. -/
def Draft.member? (members : List Member) (name : String) :
    Option (Json → Draft → Except DecodeError Draft) :=
  (members.find? fun member => member.name = name).map fun member json draft => do
    if member ∈ draft.seen then throw .malformed
    let body ← draft.body.take member json
    return { seen := member :: draft.seen, body }

/-- Takes up the values of an array in the order of the members. -/
def takeItems : List Member → JsonItems → Body → Except DecodeError Body
  | [], .close, body => .ok body
  | member :: members, .cons json items, body => do
    let body ← body.take member json
    takeItems members items body
  | member :: members, .close, body =>
    if member.isExpressionMap then takeItems members .close body else .error .malformed
  | _, _, _ => .error .malformed

/-- The body that an object or an array writes. -/
def ofJson (members : List Member) : Json → Except DecodeError Body
  | .object given => Draft.body <$> given.collect (Draft.member? members) {}
  | .array items => takeItems members items {}
  | _ => .error .malformed

/-- An expression map as a member. -/
def mapMember? {α : Type} (dict : Dict α) : Option (Dict α) :=
  if dict.isEmpty then none else some dict

/-- The value of a member that has to be there. -/
def require {α : Type} (member : Member) : Option α → Except DecodeError α
  | some value => .ok value
  | none => .error (.missingField member.name)

end Body

namespace Request

/-- The members of a request. -/
def toBody : Request → Body
  | getItem request => {
      tableName := request.table
      key := request.key
      consistentRead := request.consistentRead
      projection := request.projection
      names := Body.mapMember? request.names }
  | putItem request => {
      tableName := request.table
      item := request.item
      condition := request.condition
      names := Body.mapMember? request.names
      values := Body.mapMember? request.values }
  | updateItem request => {
      tableName := request.table
      key := request.key
      update := request.update
      condition := request.condition
      names := Body.mapMember? request.names
      values := Body.mapMember? request.values }
  | deleteItem request => {
      tableName := request.table
      key := request.key
      condition := request.condition
      names := Body.mapMember? request.names
      values := Body.mapMember? request.values }
  | query request => {
      tableName := request.table
      indexName := request.index
      keyCondition := request.keyCondition
      filter := request.filter
      projection := request.projection
      names := Body.mapMember? request.names
      values := Body.mapMember? request.values
      forward := request.forward
      limit := request.limit
      consistentRead := request.consistentRead }
  | scan request => {
      tableName := request.table
      indexName := request.index
      filter := request.filter
      projection := request.projection
      names := Body.mapMember? request.names
      values := Body.mapMember? request.values
      limit := request.limit
      consistentRead := request.consistentRead }

/-- The request for an operation that the members of a body make. -/
def ofBody (operation : Operation) (body : Body) : Except DecodeError Request := do
  let table ← Body.require .tableName body.tableName
  let names := body.names.getD ∅
  let values := body.values.getD ∅
  match operation with
  | .getItem =>
    let key ← Body.require .key body.key
    return .getItem {
      table, key, consistentRead := body.consistentRead, projection := body.projection, names }
  | .putItem =>
    let item ← Body.require .item body.item
    return .putItem { table, item, condition := body.condition, names, values }
  | .updateItem =>
    let key ← Body.require .key body.key
    return .updateItem {
      table, key, update := body.update, condition := body.condition, names, values }
  | .deleteItem =>
    let key ← Body.require .key body.key
    return .deleteItem { table, key, condition := body.condition, names, values }
  | .query =>
    return .query {
      table, index := body.indexName, keyCondition := body.keyCondition, filter := body.filter,
      projection := body.projection, names, values, forward := body.forward, limit := body.limit,
      consistentRead := body.consistentRead }
  | .scan =>
    return .scan {
      table, index := body.indexName, filter := body.filter, projection := body.projection, names,
      values, limit := body.limit, consistentRead := body.consistentRead }

/-- The body of a request. -/
def toJson (request : Request) : Json := request.toBody.toJson request.operation.members

/-- The request for an operation that a body writes. -/
def ofJson (operation : Operation) (json : Json) : Except DecodeError Request := do
  let body ← Body.ofJson operation.members json
  ofBody operation body

end Request

end DocExpr
