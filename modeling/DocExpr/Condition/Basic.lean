import DocExpr.Attribute.Value
import DocExpr.Condition.Operator
import DocExpr.Path.Basic

/-!
# Conditions

A condition is a tree of tests on paths, joined by connectives.  The tree is the same before and
after its paths are resolved and its values bound; only the leaves differ, so the type is
parametric in what stands for a path and for a value.

A caller may also give the text of a condition as it is, along with the placeholders in it.

## Main definitions

* `ConditionTree`, `Condition`: the tree, and the one that a caller writes.
* `Condition.andAlso`, `Condition.orElse`: add a condition to a group or start one.
-/

namespace DocExpr

/-- A test, or tests joined by connectives. -/
inductive ConditionTree (P V : Type) where
  /-- Text written by the caller, and what its placeholders stand for. -/
  | fixed (text : String) (names : Dict String) (values : Dict AttributeValue)
  /-- Whether there is an attribute at a path. -/
  | existence (path : P) (expected : Bool)
  /-- Whether the attribute at a path is of the type with a tag. -/
  | hasType (path : P) (tag : V)
  | compare (path : P) (comparison : Comparison) (operand : V)
  | compareField (path : P) (comparison : Comparison) (other : P)
  | between (path : P) (low high : V)
  | beginsWith (path : P) (start : V)
  | contains (path : P) (operand : V)
  | oneOf (path : P) (candidates : List V)
  | group (connective : Connective) (operands : List (ConditionTree P V))
  | not (operand : ConditionTree P V)
  deriving Repr

/-- A condition as a caller writes it. -/
abbrev Condition := ConditionTree Path AttributeValue

namespace Condition

/-- The test for an attribute type. -/
def isType (path : Path) (type : AttributeType) : Condition :=
  .hasType path (.string type.tag)

/-- A condition that holds when both hold.  A conjunction takes up the second at its end. -/
def andAlso (a b : Condition) : Condition :=
  match a with
  | .group .and operands => .group .and (operands ++ [b])
  | a => .group .and [a, b]

/-- A condition that holds when one of two holds.  A disjunction takes up the second at its end. -/
def orElse (a b : Condition) : Condition :=
  match a with
  | .group .or operands => .group .or (operands ++ [b])
  | a => .group .or [a, b]

end Condition

end DocExpr
