import DocExpr.Condition.Resolve

/-!
# The text of conditions

Each test has one form.  The operands of a connective are enclosed in parentheses with a blank
inside, the operand of a negation in parentheses without one.
-/

namespace DocExpr

variable {n : Nat}

/-- A bound value in an expression. -/
def BoundValue.fragment (value : BoundValue) : Fragment :=
  { text := value.placeholder, values := .singleton value.placeholder value.value }

namespace ResolvedCondition

mutual

/-- The condition in an expression. -/
def fragment : ResolvedCondition → Fragment
  | .fixed text names values => { text, names, values }
  | .existence path true => .call "attribute_exists" [path.fragment]
  | .existence path false => .call "attribute_not_exists" [path.fragment]
  | .hasType path tag => .call "attribute_type" [path.fragment, tag.fragment]
  | .compare path comparison operand =>
    .join (" " ++ comparison.sign ++ " ") [path.fragment, operand.fragment]
  | .compareField path comparison other =>
    .join (" " ++ comparison.sign ++ " ") [path.fragment, other.fragment]
  | .between path low high =>
    path.fragment ++ .ofText " between " ++ .join " and " [low.fragment, high.fragment]
  | .beginsWith path start => .call "begins_with" [path.fragment, start.fragment]
  | .contains path operand => .call "contains" [path.fragment, operand.fragment]
  | .oneOf path candidates =>
    path.fragment ++ .call " in " (candidates.map BoundValue.fragment)
  | .group connective operands =>
    .join (" " ++ connective.word ++ " ") (enclosed operands)
  | .not operand => .enclose "NOT (" (fragment operand) ")"

/-- The operands of a connective. -/
def enclosed : List ResolvedCondition → List Fragment
  | [] => []
  | operand :: rest => .enclose "( " (fragment operand) " )" :: enclosed rest

end

end ResolvedCondition

/-- The condition of an expression about an entity. -/
def Condition.compile (family : Family n) (of : Fin n) (condition : Condition) :
    Compile Fragment :=
  return (← condition.resolve family of).fragment

end DocExpr
