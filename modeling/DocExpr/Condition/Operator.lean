/-!
# Operators of conditions
-/

namespace DocExpr

/-- How two operands are compared. -/
inductive Comparison where
  | eq
  | ne
  | lt
  | le
  | gt
  | ge
  deriving DecidableEq, Repr

/-- The sign of a comparison. -/
def Comparison.sign : Comparison → String
  | eq => "="
  | ne => "<>"
  | lt => "<"
  | le => "<="
  | gt => ">"
  | ge => ">="

/-- How the conditions of a group are joined. -/
inductive Connective where
  | and
  | or
  deriving DecidableEq, Repr

/-- The word of a connective. -/
def Connective.word : Connective → String
  | and => "and"
  | or => "or"

end DocExpr
