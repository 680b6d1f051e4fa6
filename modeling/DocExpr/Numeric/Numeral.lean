import DocExpr.Numeric.Integer

/-!
# Decimal numerals

The texts that stand for a real number, an infinity or no number: an optional sign, then either
digits with an optional point and an optional power of ten, or one of the words `inf`, `infinity`
and `nan` in any case.  At least one digit is needed, on either side of the point; blanks and digit
separators are not understood.
-/

namespace DocExpr

/-- The number `coefficient * 10 ^ exponent`. -/
structure Decimal where
  coefficient : Nat
  exponent : Int
  deriving DecidableEq, Repr

/-- What a numeral says apart from its sign. -/
inductive Magnitude where
  | nan
  | infinite
  | decimal (value : Decimal)
  deriving DecidableEq, Repr

structure Numeral where
  negative : Bool
  magnitude : Magnitude
  deriving DecidableEq, Repr

namespace Numeral

/-- The sign of a text and what follows it. -/
def splitSign : List Char → Bool × List Char
  | '-' :: rest => (true, rest)
  | '+' :: rest => (false, rest)
  | rest => (false, rest)

/-- The power of ten at the end of a numeral; no text is the power zero. -/
def readExponent? : List Char → Option Int
  | [] => some 0
  | e :: rest =>
    if e = 'e' ∨ e = 'E' then
      let (negative, digits) := splitSign rest
      (readDigits? digits).map fun n => if negative then -(n : Int) else n
    else none

/-- The digits after the point, and what follows them. -/
def splitFraction : List Char → List Char × List Char
  | '.' :: rest => rest.span Char.isDigit
  | rest => ([], rest)

/-- The number that digits, a point and a power of ten write. -/
def readDecimal? (cs : List Char) : Option Decimal := do
  let (whole, afterWhole) := cs.span Char.isDigit
  let (fraction, tail) := splitFraction afterWhole
  let coefficient ← readDigits? (whole ++ fraction)
  let exponent ← readExponent? tail
  return ⟨coefficient, exponent - fraction.length⟩

/-- What a text without its sign stands for. -/
def readMagnitude? (cs : List Char) : Option Magnitude :=
  let word := cs.map Char.toLower
  if word = ['n', 'a', 'n'] then some .nan
  else if word = ['i', 'n', 'f'] ∨ word = ['i', 'n', 'f', 'i', 'n', 'i', 't', 'y'] then
    some .infinite
  else (readDecimal? cs).map .decimal

/-- The numeral that a text writes. -/
def read? (s : String) : Option Numeral :=
  let (negative, rest) := splitSign s.toList
  (readMagnitude? rest).map (⟨negative, ·⟩)

end Numeral

/-- The decimal written out: no power of ten, no point unless digits follow it. -/
def Decimal.positional (d : Decimal) : List Char :=
  let digits := Nat.toDigits 10 d.coefficient
  let places := (-d.exponent).toNat
  if places = 0 then digits ++ List.replicate d.exponent.toNat '0'
  else if places < digits.length then
    digits.take (digits.length - places) ++ '.' :: digits.drop (digits.length - places)
  else '0' :: '.' :: List.replicate (places - digits.length) '0' ++ digits

end DocExpr
