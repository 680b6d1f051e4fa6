import DocExpr.Attribute.Value
import DocExpr.Path.Basic

/-!
# Updates

An update is a list of statements, each of which does something to the attribute at a path: gives it
a value, adds to it, removes it, or deletes members from it.  As with conditions, the types are
parametric in what stands for a path and for a value.

## Main definitions

* `ValueExpr`: a value, the attribute at a path, a sum or difference, or two lists in a row.
* `Statement`, `Update`: what a caller writes.
* `Clause`: the part of an update expression in which a statement stands.
-/

namespace DocExpr

/-- The operator between two numbers. -/
inductive ArithmeticOp where
  | plus
  | minus
  deriving DecidableEq, Repr

def ArithmeticOp.sign : ArithmeticOp → String
  | plus => "+"
  | minus => "-"

/-- What an attribute is given. -/
inductive ValueExpr (P V : Type) where
  | constant (value : V)
  | path (path : P)
  | arithmetic (left : ValueExpr P V) (op : ArithmeticOp) (right : ValueExpr P V)
  | listAppend (head tail : ValueExpr P V)
  deriving DecidableEq, Repr

/-- What is done to an attribute. -/
inductive Action (P V : Type) where
  /-- Gives it a value; if `overwrite` does not hold, only when there is none. -/
  | set (value : ValueExpr P V) (overwrite : Bool)
  /-- Adds to a number or a set. -/
  | add (value : ValueExpr P V)
  | remove
  /-- Deletes members from a set. -/
  | delete (value : ValueExpr P V)
  deriving DecidableEq, Repr

/-- An action on the attribute at a path. -/
structure StatementOn (P V : Type) where
  target : P
  action : Action P V
  deriving DecidableEq, Repr

/-- A statement as a caller writes it. -/
abbrev Statement := StatementOn Path AttributeValue

/-- Statements in order; of those on one place the last counts. -/
abbrev Update := List Statement

/-- The parts of an update expression. -/
inductive Clause where
  | set
  | add
  | remove
  | delete
  deriving DecidableEq, Repr

namespace Clause

/-- The word that a clause starts with. -/
def keyword : Clause → String
  | set => "SET"
  | add => "ADD"
  | remove => "REMOVE"
  | delete => "DELETE"

/-- The clauses in the order of an expression. -/
def all : List Clause := [set, add, remove, delete]

end Clause

/-- The clause in which an action stands. -/
def Action.clause {P V : Type} : Action P V → Clause
  | set .. => .set
  | add _ => .add
  | remove => .remove
  | delete _ => .delete

end DocExpr
