import DocExpr.Config
import DocExpr.Placeholder.Reference
import DocExpr.Record.Item
import DocExpr.Request.Basic
import DocExpr.Update.Compile

/-!
# Tables

A table keeps the records of one entity.  Its operations compile conditions, updates and projections
into requests.  All expressions of a request share one context, so a placeholder means the same
everywhere in it.

The expressions of a request are compiled first, then its placeholders are checked if the
configuration asks for it, and last the record is turned into a key or an item.

## Main definitions

* `Table.read`, `Table.put`, `Table.delete`, `Table.update`, `Table.save`, `Table.scan`,
  `Table.query`: the requests.
* `Family.derive`: the update that overwrites what a record holds outside its key.
-/

namespace DocExpr

variable {n : Nat}

/-- The statements that give every attribute outside the key the value that it has in a record. -/
def Family.derive (family : Family n) (of : Fin n) (record : Record) :
    Except MappingError Update := do
  let entries ← encodeFields family of (fun field => !field.isKey) record
  return entries.map fun (name, value) => ⟨.ofName name, .set (.constant value) true⟩

/-- Where the records of an entity are kept, and how requests for them are compiled. -/
structure Table (n : Nat) where
  name : String
  family : Family n
  of : Fin n
  config : Config := {}

/-- What is asked of a single item. -/
structure ReadOptions where
  projection : List Path := []
  consistent : Bool := false

/-- What is asked of all items. -/
structure ScanOptions where
  index : Option String := none
  filter : Option Condition := none
  projection : List Path := []
  limit : Option Int := none
  consistent : Bool := false

/-- What is asked of the items under a key. -/
structure QueryOptions extends ScanOptions where
  keyCondition : Condition
  descending : Bool := false

/-- The attributes to ask for, if some are named. -/
def compileProjection (family : Family n) (of : Fin n) (paths : List Path) :
    Compile (Option Fragment) := do
  if paths.isEmpty then return none
  let resolved ← paths.mapM (Path.resolve family of)
  return some (.join ", " (resolved.map ResolvedPath.fragment))

/-- The text of an optional fragment. -/
def text? (fragment : Option Fragment) : Option String := fragment.map Fragment.text

/-- The placeholders of several optional fragments, without their text. -/
def declarations (fragments : List (Option Fragment)) : Fragment :=
  .join "" (fragments.filterMap id)

namespace Table

/-- Compiles the expressions of a request on a context of their own. -/
def run {α : Type} (table : Table n) (computation : Compile α) : Except ExpressionError α :=
  computation.runFresh table.config.alphabet

/-- The placeholders of a request, checked if the configuration asks for it. -/
def finish (table : Table n) (fragments : List (Option Fragment)) :
    Except ExpressionError Fragment := do
  let declared := declarations fragments
  if table.config.validate then
    checkPlaceholders (fragments.filterMap text?) declared.names declared.values
  return declared

/-- The key of a record. -/
def keyOf (table : Table n) (record : Record) : Except ExpressionError Item :=
  (table.family.exportKey table.of record).mapError .mapping

/-- The item of a record. -/
def itemOf (table : Table n) (record : Record) : Except ExpressionError Item :=
  (table.family.exportItem table.of record).mapError .mapping

/-- Asks for the item with the key of a record. -/
def read (table : Table n) (record : Record) (options : ReadOptions := {}) :
    Except ExpressionError GetRequest := do
  let projection ← table.run (compileProjection table.family table.of options.projection)
  let declared ← table.finish [projection]
  let key ← table.keyOf record
  return {
    table := table.name
    key
    consistentRead := if options.consistent then some true else none
    projection := text? projection
    names := declared.names }

/-- Stores a record, if a condition holds of the item that is there. -/
def put (table : Table n) (record : Record) (condition : Option Condition := none) :
    Except ExpressionError PutRequest := do
  let condition ← table.run (compileCondition? table.family table.of condition)
  let declared ← table.finish [condition]
  let item ← table.itemOf record
  return {
    table := table.name
    item
    condition := text? condition
    names := declared.names
    values := declared.values }

/-- Deletes the item with the key of a record, if a condition holds of it. -/
def delete (table : Table n) (record : Record) (condition : Option Condition := none) :
    Except ExpressionError DeleteRequest := do
  let condition ← table.run (compileCondition? table.family table.of condition)
  let declared ← table.finish [condition]
  let key ← table.keyOf record
  return {
    table := table.name
    key
    condition := text? condition
    names := declared.names
    values := declared.values }

/-- Updates the item with the key of a record, if a condition holds of it. -/
def update (table : Table n) (record : Record) (update : Update)
    (condition : Option Condition := none) : Except ExpressionError UpdateRequest := do
  let compiled ← table.run (update.compile table.family table.of condition)
  let declared ← table.finish [compiled.update?, compiled.condition?]
  let key ← table.keyOf record
  return {
    table := table.name
    key
    update := text? compiled.update?
    condition := text? compiled.condition?
    names := declared.names
    values := declared.values }

/-- Overwrites what a record holds outside its key, if a condition holds of the item. -/
def save (table : Table n) (record : Record) (condition : Option Condition := none) :
    Except ExpressionError UpdateRequest := do
  let update ← (table.family.derive table.of record).mapError .mapping
  table.update record update condition

/-- Asks for all items. -/
def scan (table : Table n) (options : ScanOptions := {}) : Except ExpressionError ScanRequest := do
  let (filter, projection) ← table.run do
    let filter ← compileCondition? table.family table.of options.filter
    let projection ← compileProjection table.family table.of options.projection
    return (filter, projection)
  let declared ← table.finish [filter, projection]
  return {
    table := table.name
    index := options.index
    filter := text? filter
    projection := text? projection
    names := declared.names
    values := declared.values
    limit := options.limit
    consistentRead := if options.consistent then some true else none }

/-- Asks for the items under a key. -/
def query (table : Table n) (options : QueryOptions) : Except ExpressionError QueryRequest := do
  let (keyCondition, filter, projection) ← table.run do
    let keyCondition ← options.keyCondition.compile table.family table.of
    let filter ← compileCondition? table.family table.of options.filter
    let projection ← compileProjection table.family table.of options.projection
    return (keyCondition, filter, projection)
  let declared ← table.finish [some keyCondition, filter, projection]
  return {
    table := table.name
    index := options.index
    keyCondition := some keyCondition.text
    filter := text? filter
    projection := text? projection
    names := declared.names
    values := declared.values
    forward := if options.descending then some false else none
    limit := options.limit
    consistentRead := if options.consistent then some true else none }

end Table

end DocExpr
