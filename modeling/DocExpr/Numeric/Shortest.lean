import DocExpr.Numeric.Binary

/-!
# Shortest decimal text

A float is written with the fewest digits that read back as the same number of its format.  Among
the decimals of that many digits the one nearest to the number is taken, and of two equally near
ones the larger.  The text is positional whatever the size of the number, and an integer has no
point.

If a decimal of a given number of digits reads back, so does one of the number's two neighbours on
that grid; `Shortest.ofLength?` therefore looks at these two only.
-/

namespace DocExpr

namespace Shortest

/-- The decimals of `length` digits on either side of a positive ratio, the nearer one first.
`leading` is the power of ten of the ratio's first digit. -/
def neighbours (num den : Nat) (leading : Int) (length : Nat) : List Decimal :=
  let exponent := leading + 1 - length
  let (scaledNum, scaledDen) := scaleRatio 10 (-exponent) num den
  let below := scaledNum / scaledDen
  let lower : Decimal := ⟨below, exponent⟩
  let upper : Decimal :=
    if below + 1 = Nat.pow 10 length then ⟨1, leading + 1⟩ else ⟨below + 1, exponent⟩
  if scaledDen ≤ 2 * (scaledNum % scaledDen) then [upper, lower] else [lower, upper]

/-- The decimal of `length` digits that reads back, if there is one. -/
def ofLength? (f : FloatFormat) (significand : Nat) (exponent : Int) (length : Nat) :
    Option Decimal :=
  let (num, den) := scaleRatio 2 exponent significand 1
  (neighbours num den (floorLog 10 num den) length).find? fun d =>
    f.ofDecimal false d = .finite false significand exponent

/-- All digits of a number. -/
def exact (significand : Nat) (exponent : Int) : Decimal :=
  if exponent < 0 then ⟨significand * Nat.pow 5 (-exponent).toNat, exponent⟩
  else ⟨significand * Nat.pow 2 exponent.toNat, 0⟩

/-- Seventeen digits are enough for every number of either format. -/
def maxLength : Nat := 17

/-- The shortest decimal that reads back as a positive number of the format. -/
def ofFinite (f : FloatFormat) (significand : Nat) (exponent : Int) : Decimal :=
  ((List.range maxLength).findSome? fun n => ofLength? f significand exponent (n + 1)).getD
    (exact significand exponent)

end Shortest

/-- The text of a number of a format. -/
def FloatFormat.text (f : FloatFormat) : Binary → String
  | .nan => "NaN"
  | .infinite negative => if negative then "-inf" else "inf"
  | .finite negative significand exponent =>
    let digits :=
      if significand = 0 then ['0'] else (Shortest.ofFinite f significand exponent).positional
    String.ofList (if negative then '-' :: digits else digits)

end DocExpr
