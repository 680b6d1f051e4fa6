/-!
# Integers of fixed range

Numbers travel as text.  `IntegerType.read?` accepts an optional sign and decimal digits, leading
zeros included, and refuses what lies outside the range of the type; an unsigned type has no minus
sign at all, not even for zero.
-/

namespace DocExpr

/-- The integer types of a field. -/
inductive IntegerType where
  | int32
  | int64
  | uint32
  | uint64
  deriving DecidableEq, Repr

/-- The number that a run of decimal digits writes; the run may not be empty. -/
def readDigits? (cs : List Char) : Option Nat :=
  if cs ≠ [] ∧ cs.all Char.isDigit then some (Nat.ofDigitChars 10 cs 0) else none

namespace IntegerType

def lower : IntegerType → Int
  | int32 => -2147483648
  | int64 => -9223372036854775808
  | uint32 | uint64 => 0

def upper : IntegerType → Int
  | int32 => 2147483647
  | int64 => 9223372036854775807
  | uint32 => 4294967295
  | uint64 => 18446744073709551615

/-- Whether a minus sign is understood. -/
def isSigned : IntegerType → Bool
  | int32 | int64 => true
  | uint32 | uint64 => false

/-- Whether a number lies in the range of the type. -/
def contains (t : IntegerType) (n : Int) : Bool := t.lower ≤ n && n ≤ t.upper

/-- The number before its range is looked at. -/
def readUnbounded? (t : IntegerType) : List Char → Option Int
  | '+' :: digits => (readDigits? digits).map Int.ofNat
  | '-' :: digits => if t.isSigned then (readDigits? digits).map fun n => -(n : Int) else none
  | digits => (readDigits? digits).map Int.ofNat

/-- The number of the type that a text writes. -/
def read? (t : IntegerType) (s : String) : Option Int :=
  (t.readUnbounded? s.toList).filter t.contains

end IntegerType

end DocExpr
