import DocExpr.Numeric.Numeral

/-!
# Binary floating-point numbers

A finite number is a significand times a power of two, both held exactly, so every step below is
arithmetic on natural numbers.  A format says how many bits a significand has and which powers of
two it may be scaled by.

## Main definitions

* `FloatFormat.round`: the number of the format nearest to a ratio, of two equally near ones that
  with the even significand; a ratio beyond the largest number is infinite.
* `FloatFormat.read?`: the number of the format that a numeral stands for.
-/

namespace DocExpr

/-- The two interchange formats, of 32 and of 64 bits. -/
inductive FloatFormat where
  | single
  | double
  deriving DecidableEq, Repr

/-- A number of some format.  Zero keeps its sign; nothing tells one `nan` from another. -/
inductive Binary where
  | nan
  | infinite (negative : Bool)
  | finite (negative : Bool) (significand : Nat) (exponent : Int)
  deriving DecidableEq, Repr

/-- The ratio `num / den` times `base ^ exponent`, as a ratio. -/
def scaleRatio (base : Nat) (exponent : Int) (num den : Nat) : Nat × Nat :=
  (num * Nat.pow base exponent.toNat, den * Nat.pow base (-exponent).toNat)

/-- The largest power of the base (2 to 10) that is not above the positive ratio `num / den`. -/
def floorLog (base num den : Nat) : Int :=
  let guess : Int := (Nat.toDigits base num).length - (Nat.toDigits base den).length
  let (scaledNum, scaledDen) := scaleRatio base (-guess) num den
  if scaledNum < scaledDen then guess - 1 else guess

/-- The natural number nearest to a ratio; a half goes to the even neighbour. -/
def roundHalfEven (num den : Nat) : Nat :=
  let quotient := num / den
  let twice := 2 * (num % den)
  if twice > den ∨ (twice = den ∧ quotient % 2 = 1) then quotient + 1 else quotient

namespace FloatFormat

/-- Bits of a significand. -/
def precision : FloatFormat → Nat
  | single => 24
  | double => 53

/-- The power of two that the least bit of the smallest numbers counts for. -/
def minExponent : FloatFormat → Int
  | single => -149
  | double => -1074

/-- The power of two that the least bit of the largest numbers counts for. -/
def maxExponent : FloatFormat → Int
  | single => 104
  | double => 971

/-- Zero. -/
def zero (f : FloatFormat) (negative : Bool) : Binary := .finite negative 0 f.minExponent

/-- The number of the format nearest to a ratio. -/
def round (f : FloatFormat) (negative : Bool) (num den : Nat) : Binary :=
  if num = 0 then f.zero negative
  else
    let exponent := max (floorLog 2 num den - (f.precision - 1 : Nat)) f.minExponent
    let (scaledNum, scaledDen) := scaleRatio 2 (-exponent) num den
    let significand := roundHalfEven scaledNum scaledDen
    let (significand, exponent) :=
      if significand < Nat.pow 2 f.precision then (significand, exponent)
      else (significand / 2, exponent + 1)
    if exponent ≤ f.maxExponent then .finite negative significand exponent else .infinite negative

/-- Powers of ten beyond this one, up or down, are beyond every format. -/
def decimalReach : Nat := 400

/-- The number of the format nearest to a decimal. -/
def ofDecimal (f : FloatFormat) (negative : Bool) (d : Decimal) : Binary :=
  let digits := (Nat.toDigits 10 d.coefficient).length
  if d.coefficient = 0 ∨ d.exponent + digits < -decimalReach then f.zero negative
  else if d.exponent > decimalReach then .infinite negative
  else
    let (num, den) := scaleRatio 10 d.exponent d.coefficient 1
    f.round negative num den

/-- The number of the format that a numeral stands for. -/
def ofNumeral (f : FloatFormat) (n : Numeral) : Binary :=
  match n.magnitude with
  | .nan => .nan
  | .infinite => .infinite n.negative
  | .decimal d => f.ofDecimal n.negative d

/-- The number of the format that a text writes. -/
def read? (f : FloatFormat) (s : String) : Option Binary := (Numeral.read? s).map f.ofNumeral

end FloatFormat

namespace Binary

def isFinite : Binary → Bool
  | nan | infinite _ => false
  | finite .. => true

end Binary

/-- Whether a text writes a number that the 64-bit format can hold. -/
def isFiniteNumeral (s : String) : Bool :=
  match FloatFormat.double.read? s with
  | some x => x.isFinite
  | none => false

end DocExpr
