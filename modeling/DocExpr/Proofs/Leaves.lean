import DocExpr.Update.Compile

/-!
# The leaves of conditions and statements

A condition, a value expression and a statement are trees over paths and values.  Here are the
leaves of each, from left to right, and the tree that a resolved one was resolved from: its paths
without placeholders, its values without placeholders.

## Main definitions

* `ConditionTree.paths`, `ConditionTree.literals`, `ConditionTree.fixedTexts`: the leaves of a
  condition
* `ValueExpr.paths`, `ValueExpr.literals`, `StatementOn.paths`, `StatementOn.literals`: those of a
  value expression and of a statement
* `ResolvedCondition.source`, `ResolvedExpr.source`, `ResolvedStatement.source`: what was resolved
-/

namespace DocExpr

namespace ConditionTree

variable {P V P' V' : Type}

mutual

/-- The paths of a condition. -/
def paths : ConditionTree P V → List P
  | .fixed .. => []
  | .existence path _ | .hasType path _ | .compare path _ _ | .between path _ _
  | .beginsWith path _ | .contains path _ | .oneOf path _ => [path]
  | .compareField path _ other => [path, other]
  | .group _ operands => pathsOfAll operands
  | .not operand => paths operand

def pathsOfAll : List (ConditionTree P V) → List P
  | [] => []
  | operand :: rest => paths operand ++ pathsOfAll rest

end

mutual

/-- The literals of a condition, one for each occurrence. -/
def literals : ConditionTree P V → List V
  | .fixed .. | .existence .. | .compareField .. => []
  | .hasType _ value | .compare _ _ value | .beginsWith _ value | .contains _ value => [value]
  | .between _ low high => [low, high]
  | .oneOf _ candidates => candidates
  | .group _ operands => literalsOfAll operands
  | .not operand => literals operand

def literalsOfAll : List (ConditionTree P V) → List V
  | [] => []
  | operand :: rest => literals operand ++ literalsOfAll rest

end

mutual

/-- The texts that the caller wrote, with what their placeholders stand for. -/
def fixedTexts : ConditionTree P V → List Fragment
  | .fixed text names values => [{ text, names, values }]
  | .group _ operands => fixedTextsOfAll operands
  | .not operand => fixedTexts operand
  | _ => []

def fixedTextsOfAll : List (ConditionTree P V) → List Fragment
  | [] => []
  | operand :: rest => fixedTexts operand ++ fixedTextsOfAll rest

end

/-- A condition without text written by the caller. -/
def FixedFree (condition : ConditionTree P V) : Prop := condition.fixedTexts = []

instance (condition : ConditionTree P V) : Decidable condition.FixedFree :=
  decidable_of_iff (condition.fixedTexts.isEmpty = true) List.isEmpty_iff

mutual

/-- The condition with other paths and values at its leaves. -/
def map (path : P → P') (value : V → V') : ConditionTree P V → ConditionTree P' V'
  | .fixed text names values => .fixed text names values
  | .existence p expected => .existence (path p) expected
  | .hasType p tag => .hasType (path p) (value tag)
  | .compare p comparison operand => .compare (path p) comparison (value operand)
  | .compareField p comparison other => .compareField (path p) comparison (path other)
  | .between p low high => .between (path p) (value low) (value high)
  | .beginsWith p start => .beginsWith (path p) (value start)
  | .contains p operand => .contains (path p) (value operand)
  | .oneOf p candidates => .oneOf (path p) (candidates.map value)
  | .group connective operands => .group connective (mapAll path value operands)
  | .not operand => .not (map path value operand)

def mapAll (path : P → P') (value : V → V') :
    List (ConditionTree P V) → List (ConditionTree P' V')
  | [] => []
  | operand :: rest => map path value operand :: mapAll path value rest

end

variable (path : P → P') (value : V → V')

mutual

theorem literals_map : ∀ condition : ConditionTree P V,
    (condition.map path value).literals = condition.literals.map value
  | .fixed .. | .existence .. | .hasType .. | .compare .. | .compareField .. | .between ..
  | .beginsWith .. | .contains .. | .oneOf .. => by simp [map, literals]
  | .group _ operands => by rw [map, literals, literals, literalsOfAll_mapAll operands]
  | .not operand => by rw [map, literals, literals, literals_map operand]

theorem literalsOfAll_mapAll : ∀ operands : List (ConditionTree P V),
    literalsOfAll (mapAll path value operands) = (literalsOfAll operands).map value
  | [] => rfl
  | operand :: rest => by
    rw [mapAll, literalsOfAll, literalsOfAll, literals_map operand, literalsOfAll_mapAll rest,
      List.map_append]

end

mutual

/-- The caller's texts are kept as they are. -/
theorem fixedTexts_map : ∀ condition : ConditionTree P V,
    (condition.map path value).fixedTexts = condition.fixedTexts
  | .fixed .. | .existence .. | .hasType .. | .compare .. | .compareField .. | .between ..
  | .beginsWith .. | .contains .. | .oneOf .. => by simp [map, fixedTexts]
  | .group _ operands => by rw [map, fixedTexts, fixedTexts, fixedTextsOfAll_mapAll operands]
  | .not operand => by rw [map, fixedTexts, fixedTexts, fixedTexts_map operand]

theorem fixedTextsOfAll_mapAll : ∀ operands : List (ConditionTree P V),
    fixedTextsOfAll (mapAll path value operands) = fixedTextsOfAll operands
  | [] => rfl
  | operand :: rest => by
    rw [mapAll, fixedTextsOfAll, fixedTextsOfAll, fixedTexts_map operand,
      fixedTextsOfAll_mapAll rest]

end

end ConditionTree

/-- The condition that was resolved. -/
def ResolvedCondition.source (condition : ResolvedCondition) : Condition :=
  condition.map ResolvedPath.path BoundValue.value

namespace ValueExpr

variable {P V P' V' : Type}

/-- The paths of a value expression. -/
def paths : ValueExpr P V → List P
  | .constant _ => []
  | .path p => [p]
  | .arithmetic left _ right => paths left ++ paths right
  | .listAppend head tail => paths head ++ paths tail

/-- The literals of a value expression, one for each occurrence. -/
def literals : ValueExpr P V → List V
  | .constant value => [value]
  | .path _ => []
  | .arithmetic left _ right => literals left ++ literals right
  | .listAppend head tail => literals head ++ literals tail

/-- The value expression with other paths and values at its leaves. -/
def map (path : P → P') (value : V → V') : ValueExpr P V → ValueExpr P' V'
  | .constant v => .constant (value v)
  | .path p => .path (path p)
  | .arithmetic left op right => .arithmetic (map path value left) op (map path value right)
  | .listAppend head tail => .listAppend (map path value head) (map path value tail)

theorem paths_map (path : P → P') (value : V → V') (expr : ValueExpr P V) :
    (expr.map path value).paths = expr.paths.map path := by
  induction expr with
  | constant v => rfl
  | path p => rfl
  | arithmetic left op right ihl ihr => rw [map, paths, ihl, ihr, paths, List.map_append]
  | listAppend head tail ihh iht => rw [map, paths, ihh, iht, paths, List.map_append]

end ValueExpr

/-- The value expression that was resolved. -/
def ResolvedExpr.source (expr : ResolvedExpr) : ValueExpr Path AttributeValue :=
  expr.map ResolvedPath.path BoundValue.value

namespace Action

variable {P V P' V' : Type}

/-- The value expression of an action, if it has one. -/
def expr? : Action P V → Option (ValueExpr P V)
  | .set value _ | .add value | .delete value => some value
  | .remove => none

/-- The action with other paths and values at its leaves. -/
def map (path : P → P') (value : V → V') : Action P V → Action P' V'
  | .set expr overwrite => .set (expr.map path value) overwrite
  | .add expr => .add (expr.map path value)
  | .remove => .remove
  | .delete expr => .delete (expr.map path value)

@[simp] theorem clause_map (path : P → P') (value : V → V') (action : Action P V) :
    (action.map path value).clause = action.clause := by
  cases action <;> rfl

end Action

namespace StatementOn

variable {P V : Type}

/-- The paths of a statement: its target, then those of its value. -/
def paths (statement : StatementOn P V) : List P :=
  statement.target :: (statement.action.expr?.map ValueExpr.paths).getD []

/-- The literals of a statement, one for each occurrence. -/
def literals (statement : StatementOn P V) : List V :=
  (statement.action.expr?.map ValueExpr.literals).getD []

end StatementOn

/-- The statement that was resolved. -/
def ResolvedStatement.source (statement : ResolvedStatement) : Statement :=
  ⟨statement.target.path, statement.action.map ResolvedPath.path BoundValue.value⟩

end DocExpr
