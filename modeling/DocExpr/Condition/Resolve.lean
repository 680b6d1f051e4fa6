import DocExpr.Condition.Basic
import DocExpr.Path.Resolve

/-!
# Resolving conditions

The leaves of a condition are resolved from left to right: first the path of a test, then its
operands, each of which gets a placeholder of its own.  The operands of a comparison, of a range, of
a list of candidates and of a test for a beginning have to be of the type of the path; what a
collection may contain is not known from its type.

Emptiness of a list of candidates or of a group is found before anything is bound.
-/

namespace DocExpr

/-- A condition whose names and values have placeholders. -/
abbrev ResolvedCondition := ConditionTree ResolvedPath BoundValue

variable {n : Nat}

namespace Condition

mutual

/-- The condition with placeholders for its names and values. -/
def resolve (family : Family n) (of : Fin n) : Condition → Compile ResolvedCondition
  | .fixed text names values => do
    names.entries.forM fun (placeholder, field) => Compile.reserveName placeholder field
    values.entries.forM fun (placeholder, value) => Compile.reserveValue placeholder value
    return .fixed text names values
  | .existence path expected => do
    let path ← path.resolve family of
    return .existence path expected
  | .hasType path tag => do
    let path ← path.resolve family of
    let tag ← Compile.bindValue tag
    return .hasType path tag
  | .compare path comparison operand => do
    let path ← path.resolve family of
    let operand ← path.bindOperand operand
    return .compare path comparison operand
  | .compareField path comparison other => do
    let path ← path.resolve family of
    let other ← other.resolve family of
    return .compareField path comparison other
  | .between path low high => do
    let path ← path.resolve family of
    let low ← path.bindOperand low
    let high ← path.bindOperand high
    return .between path low high
  | .beginsWith path start => do
    let path ← path.resolve family of
    let start ← path.bindOperand start
    return .beginsWith path start
  | .contains path operand => do
    let path ← path.resolve family of
    let operand ← Compile.bindValue operand
    return .contains path operand
  | .oneOf path candidates => do
    if candidates.isEmpty then throw (.invalidCondition .noCandidate)
    let path ← path.resolve family of
    let candidates ← candidates.mapM path.bindOperand
    return .oneOf path candidates
  | .group connective operands => do
    if operands.isEmpty then throw (.invalidCondition (.noOperand connective))
    let operands ← resolveAll family of operands
    return .group connective operands
  | .not operand => do
    let operand ← resolve family of operand
    return .not operand

/-- Conditions resolved one after the other. -/
def resolveAll (family : Family n) (of : Fin n) :
    List Condition → Compile (List ResolvedCondition)
  | [] => return []
  | condition :: rest => do
    let condition ← resolve family of condition
    let rest ← resolveAll family of rest
    return condition :: rest

end

end Condition

end DocExpr
