import DocExpr.Proofs.Lexeme
import DocExpr.Proofs.Leaves

/-!
# What an expression says

The placeholders of an expression are a detour: what counts is what a reader gets back who looks
each of them up.  Such a reader sees *pieces*: characters, names of fields and values.

`written` tells for every path, condition and statement which pieces it stands for.  It knows
nothing of placeholders or contexts; a name is written as itself and a literal at its own place.

## Main definitions

* `readText`, `Fragment.read`: the pieces of a text, each reference looked up in two dictionaries
* `Path.written`, `Condition.written`, `ValueExpr.written`, `Statement.written`: the pieces that a
  path, a condition, a value and a statement stand for
* `writtenUpdate?`: those of the statements of an update, clause by clause
-/

namespace DocExpr

/-- What a reader sees who looks up the placeholders. -/
inductive Piece where
  | char (c : Char)
  | name (field : String)
  | value (value : AttributeValue)

/-- The characters of a text. -/
def Piece.ofText (text : String) : List Piece := text.toList.map .char

/-- What a lexeme stands for: a placeholder behind `#` is looked up among the names, one behind `:`
among the values. -/
def Lexeme.read (names : Dict String) (values : Dict AttributeValue) : Lexeme → Option Piece
  | .char c => some (.char c)
  | .reference placeholder =>
    if placeholder.toList.head? = some '#' then (names.get? placeholder).map .name
    else (values.get? placeholder).map .value

/-- The pieces of a text, if every reference in it can be looked up. -/
def readText (names : Dict String) (values : Dict AttributeValue) (text : String) :
    Option (List Piece) :=
  (lex text.toList).mapM (Lexeme.read names values)

/-- The pieces of a fragment, read through its own dictionaries. -/
def Fragment.read (fragment : Fragment) : Option (List Piece) :=
  readText fragment.names fragment.values fragment.text

open Piece (ofText)

/-! ## Paths and conditions -/

/-- The steps behind the first name of a path. -/
def writtenSteps : List Segment → List Piece
  | [] => []
  | .field name :: rest => ofText "." ++ [.name name] ++ writtenSteps rest
  | .index ordinal :: rest => ofText ("[" ++ toString ordinal ++ "]") ++ writtenSteps rest

/-- The first name of a path and the steps behind it. -/
def Path.written (path : Path) : List Piece :=
  match path.segments with
  | .field name :: rest => .name name :: writtenSteps rest
  | steps => writtenSteps steps

namespace Condition

mutual

/-- The pieces of a condition. -/
def written : Condition → List Piece
  | .fixed text _ _ => ofText text
  | .existence path true => ofText "attribute_exists(" ++ path.written ++ ofText ")"
  | .existence path false => ofText "attribute_not_exists(" ++ path.written ++ ofText ")"
  | .hasType path tag =>
    ofText "attribute_type(" ++ path.written ++ ofText ", " ++ [.value tag] ++ ofText ")"
  | .compare path comparison operand =>
    path.written ++ ofText (" " ++ comparison.sign ++ " ") ++ [.value operand]
  | .compareField path comparison other =>
    path.written ++ ofText (" " ++ comparison.sign ++ " ") ++ other.written
  | .between path low high =>
    path.written ++ ofText " between " ++ [.value low] ++ ofText " and " ++ [.value high]
  | .beginsWith path start =>
    ofText "begins_with(" ++ path.written ++ ofText ", " ++ [.value start] ++ ofText ")"
  | .contains path operand =>
    ofText "contains(" ++ path.written ++ ofText ", " ++ [.value operand] ++ ofText ")"
  | .oneOf path candidates =>
    path.written ++ ofText " in (" ++
      (ofText ", ").intercalate (candidates.map fun value => [.value value]) ++ ofText ")"
  | .group connective operands =>
    (ofText (" " ++ connective.word ++ " ")).intercalate (writtenOperands operands)
  | .not operand => ofText "NOT (" ++ written operand ++ ofText ")"

/-- The operands of a group, each in parentheses. -/
def writtenOperands : List Condition → List (List Piece)
  | [] => []
  | operand :: rest => (ofText "( " ++ written operand ++ ofText " )") :: writtenOperands rest

end

end Condition

/-! ## Updates -/

/-- The pieces of a value expression. -/
def ValueExpr.written : ValueExpr Path AttributeValue → List Piece
  | .constant value => [.value value]
  | .path p => p.written
  | .arithmetic left op right =>
    written left ++ ofText (" " ++ op.sign ++ " ") ++ written right
  | .listAppend head tail =>
    ofText "list_append(" ++ written head ++ ofText ", " ++ written tail ++ ofText ")"

/-- The pieces of a statement.  One that keeps an existing value names its target twice. -/
def Statement.written (statement : Statement) : List Piece :=
  let target := statement.target.written
  match statement.action with
  | .set value true => target ++ ofText " = " ++ value.written
  | .set value false =>
    target ++ ofText " = " ++
      (ofText "if_not_exists(" ++ target ++ ofText ", " ++ value.written ++ ofText ")")
  | .add value => target ++ ofText " " ++ value.written
  | .remove => target
  | .delete value => target ++ ofText " " ++ value.written

/-- The pieces of those statements that belong to a clause, behind its word. -/
def writtenClause? (statements : List Statement) (clause : Clause) : Option (List Piece) :=
  match statements.filter fun statement => statement.action.clause = clause with
  | [] => none
  | own => some (ofText (clause.keyword ++ " ") ++
      (ofText ", ").intercalate (own.map Statement.written))

/-- The clauses of some statements, in the order `SET`, `ADD`, `REMOVE`, `DELETE`. -/
def writtenClauses (statements : List Statement) : List (List Piece) :=
  [Clause.set, .add, .remove, .delete].filterMap (writtenClause? statements)

/-- The pieces of an update expression, if there are statements. -/
def writtenUpdate? (statements : List Statement) : Option (List Piece) :=
  match writtenClauses statements with
  | [] => none
  | clauses => some ((ofText " ").intercalate clauses)

end DocExpr
