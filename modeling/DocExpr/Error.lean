import DocExpr.Condition.Operator
import DocExpr.Placeholder.Alphabet
import DocExpr.Record.Basic

/-!
# Errors of expressions

Everything that can be wrong with an expression, told apart by cause.  `ExpressionError.message` is
the wording.
-/

namespace DocExpr

/-- Why a path does not denote a place inside an item. -/
inductive PathFault where
  /-- An element of the root, which is no list. -/
  | elementOfRoot (ordinal : Nat)
  /-- A path without segments. -/
  | bareRoot
  /-- An element before any field. -/
  | elementOfNothing (ordinal : Nat)
  /-- An element of a field that holds no list. -/
  | elementOfNonList (ordinal : Nat) (literal : String)
  deriving DecidableEq, Repr

def PathFault.reason : PathFault → String
  | elementOfRoot ordinal =>
    "index [" ++ toString ordinal ++ "] requires a list attribute, found the root"
  | bareRoot => "a bare root path cannot be serialized"
  | elementOfNothing ordinal => "index [" ++ toString ordinal ++ "] has no enclosing list attribute"
  | elementOfNonList ordinal literal =>
    "index [" ++ toString ordinal ++ "] applied to a non-list attribute in " ++ literal

/-- Why a condition says nothing. -/
inductive ConditionFault where
  | noCandidate
  | noOperand (connective : Connective)
  deriving DecidableEq, Repr

def ConditionFault.reason : ConditionFault → String
  | noCandidate => "\x60in\x60 requires at least one candidate"
  | noOperand connective => "\x60" ++ connective.word ++ "\x60 requires at least one operand"

/-- What a placeholder stands for. -/
inductive PlaceholderKind where
  | name
  | value
  deriving DecidableEq, Repr

def PlaceholderKind.word : PlaceholderKind → String
  | name => "name"
  | value => "value"

/-- Why an expression does not compile. -/
inductive ExpressionError where
  | allocation (fault : AlphabetFault)
  | unknownField (field entity : String)
  | invalidPath (fault : PathFault)
  | unresolvedName (field : String)
  | invalidCondition (fault : ConditionFault)
  | typeMismatch (path : String) (expected actual : AttributeType)
  | invalidNumber (numeral : String)
  | mapping (cause : MappingError)
  | keyUpdate (path : String)
  | placeholderConflict (placeholder : String) (kind : PlaceholderKind)
  | undefinedPlaceholder (placeholder : String)
  | unusedPlaceholder (placeholder : String)
  deriving DecidableEq, Repr

def ExpressionError.message : ExpressionError → String
  | allocation fault => "cannot allocate placeholder: " ++ fault.reason
  | unknownField field entity => "unknown field '" ++ field ++ "' for entity " ++ entity
  | invalidPath fault => "invalid path: " ++ fault.reason
  | unresolvedName field => "no placeholder bound for field '" ++ field ++ "'"
  | invalidCondition fault => "invalid condition: " ++ fault.reason
  | typeMismatch path expected actual =>
    "type mismatch for '" ++ path ++ "': expected " ++ expected.tag ++ ", found " ++ actual.tag
  | invalidNumber numeral => "invalid number literal '" ++ numeral ++ "'"
  | mapping cause => "cannot encode entity: " ++ cause.message
  | keyUpdate path =>
    "cannot update attribute " ++ path ++ ": this attribute is part of the key"
  | placeholderConflict placeholder kind =>
    "placeholder " ++ placeholder ++ " is already bound to a different " ++ kind.word
  | undefinedPlaceholder placeholder =>
    "expression references undefined placeholder " ++ placeholder
  | unusedPlaceholder placeholder =>
    "placeholder " ++ placeholder ++ " is provided but unused in expressions"

end DocExpr
