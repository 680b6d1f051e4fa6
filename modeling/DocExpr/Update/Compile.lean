import DocExpr.Condition.Render
import DocExpr.Update.Basic

/-!
# Compiling updates

Every statement is resolved in order, then the condition.  Of the statements whose targets are
written alike only the last survives; it takes the position of the first.  The survivors are printed
clause by clause, and only their placeholders, with those of the condition, are declared.

The key of an item cannot be updated: a statement whose target starts at a field of the key is
refused before its value is looked at.

## Main definitions

* `Statement.resolve`: a statement with placeholders for its names and values.
* `survivors`: the statements that are printed.
* `Update.compile`: the expressions of an update and of its condition.
-/

namespace DocExpr

variable {n : Nat}

/-- A value expression whose names and values have placeholders. -/
abbrev ResolvedExpr := ValueExpr ResolvedPath BoundValue

/-- A statement whose names and values have placeholders. -/
abbrev ResolvedStatement := StatementOn ResolvedPath BoundValue

/-- The value expression with placeholders.  A constant that is the whole value of an attribute is
checked against the type of the attribute; `bind` does that. -/
def resolveExpr (family : Family n) (of : Fin n) (bind : AttributeValue → Compile BoundValue) :
    ValueExpr Path AttributeValue → Compile ResolvedExpr
  | .constant value => do
    let value ← bind value
    return .constant value
  | .path path => do
    let path ← path.resolve family of
    return .path path
  | .arithmetic left op right => do
    let left ← resolveExpr family of Compile.bindValue left
    let right ← resolveExpr family of Compile.bindValue right
    return .arithmetic left op right
  | .listAppend head tail => do
    let head ← resolveExpr family of Compile.bindValue head
    let tail ← resolveExpr family of Compile.bindValue tail
    return .listAppend head tail

/-- The statement with placeholders. -/
def Statement.resolve (family : Family n) (of : Fin n) (statement : Statement) :
    Compile ResolvedStatement := do
  let target ← statement.target.resolve family of
  if target.rootIsKey then throw (.keyUpdate target.literal)
  let action ← match statement.action with
    | .set value overwrite => do
      let value ← resolveExpr family of target.bindOperand value
      pure (.set value overwrite)
    | .add value => do
      let value ← resolveExpr family of Compile.bindValue value
      pure (.add value)
    | .remove => pure .remove
    | .delete value => do
      let value ← resolveExpr family of Compile.bindValue value
      pure (.delete value)
  return ⟨target, action⟩

/-- A value expression in an update.  Operators are written without parentheses. -/
def ResolvedExpr.fragment : ResolvedExpr → Fragment
  | .constant value => value.fragment
  | .path path => path.fragment
  | .arithmetic left op right => .join (" " ++ op.sign ++ " ") [fragment left, fragment right]
  | .listAppend head tail => .call "list_append" [fragment head, fragment tail]

/-- A statement in its clause. -/
def ResolvedStatement.fragment (statement : ResolvedStatement) : Fragment :=
  let target := statement.target.fragment
  match statement.action with
  | .set value true => .join " = " [target, ResolvedExpr.fragment value]
  | .set value false =>
    .join " = " [target, .call "if_not_exists" [target, ResolvedExpr.fragment value]]
  | .add value => .join " " [target, ResolvedExpr.fragment value]
  | .remove => target
  | .delete value => .join " " [target, ResolvedExpr.fragment value]

/-- The last statement on each target, in the order of the first ones. -/
def survivors (statements : List ResolvedStatement) : List ResolvedStatement :=
  (Dict.ofList (statements.map fun statement => (statement.target.literal, statement))).values

/-- The statements of a clause, if there are any. -/
def clauseFragment? (statements : List ResolvedStatement) (clause : Clause) : Option Fragment :=
  let own := statements.filter fun statement => statement.action.clause = clause
  if own.isEmpty then none
  else some (.ofText (clause.keyword ++ " ") ++ .join ", " (own.map ResolvedStatement.fragment))

/-- The clauses of an update, if there are any. -/
def updateFragment? (statements : List ResolvedStatement) : Option Fragment :=
  let clauses := Clause.all.filterMap (clauseFragment? statements)
  if clauses.isEmpty then none else some (.join " " clauses)

/-- The expressions of an update and of its condition. -/
structure CompiledUpdate where
  update? : Option Fragment
  condition? : Option Fragment
  deriving Repr

namespace CompiledUpdate

/-- The field of each name placeholder. -/
def names (compiled : CompiledUpdate) : Dict String :=
  ((compiled.update?.map Fragment.names).getD ∅).merge
    ((compiled.condition?.map Fragment.names).getD ∅)

/-- The value of each value placeholder. -/
def values (compiled : CompiledUpdate) : Dict AttributeValue :=
  ((compiled.update?.map Fragment.values).getD ∅).merge
    ((compiled.condition?.map Fragment.values).getD ∅)

end CompiledUpdate

/-- Compiles a condition, if there is one. -/
def compileCondition? (family : Family n) (of : Fin n) :
    Option Condition → Compile (Option Fragment)
  | none => return none
  | some condition => return some (← condition.compile family of)

/-- The expressions of an update and of its condition about an entity. -/
def Update.compile (family : Family n) (of : Fin n) (update : Update)
    (condition? : Option Condition) : Compile CompiledUpdate := do
  let statements ← update.mapM (Statement.resolve family of)
  let condition? ← compileCondition? family of condition?
  return { update? := updateFragment? (survivors statements), condition? }

end DocExpr
