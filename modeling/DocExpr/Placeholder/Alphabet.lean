import DocExpr.Placeholder.Token
import DocExpr.Text.Blank
import DocExpr.Text.Quoted

/-!
# Alphabets and codes

Codes are minted by counting: the numbers 0, 1, 2, … are written over an alphabet so that all codes
of one symbol come first, then all codes of two symbols, and so on, each length in the order of the
alphabet.  There is no symbol for zero; the first symbol of an alphabet is a digit like any other,
which is why the quotient goes down by one at each step.

## Main definitions

* `Alphabet`: distinct symbols of tokens, at least one.
* `Alphabet.ofSymbols`: the alphabet that some symbols make, or the first fault among them.
* `Alphabet.code`: the code of a number.
-/

namespace DocExpr

/-- Why symbols make no alphabet. -/
inductive AlphabetFault where
  /-- There is no symbol but blanks. -/
  | blank
  /-- A symbol that cannot stand in a token. -/
  | unusable (symbol : Char)
  | repeated (symbol : Char)
  deriving DecidableEq, Repr

def AlphabetFault.reason : AlphabetFault → String
  | blank => "placeholder alphabet is empty or blank"
  | unusable symbol => "symbol " ++ Text.quoteChar symbol ++ " cannot appear in a placeholder"
  | repeated symbol => "symbol " ++ Text.quoteChar symbol ++ " appears more than once"

/-- The symbols that codes are written with. -/
structure Alphabet where
  symbols : List Char
  symbols_ne_nil : symbols ≠ []
  isTokenChar_symbol : ∀ symbol ∈ symbols, isTokenChar symbol = true
  nodup : symbols.Nodup

namespace Alphabet

/-- The first symbol, given those before it, that is no symbol of tokens or occurs a second time. -/
def symbolFault? (seen : List Char) : List Char → Option AlphabetFault
  | [] => none
  | symbol :: rest =>
    if isTokenChar symbol = false then some (.unusable symbol)
    else if symbol ∈ seen then some (.repeated symbol)
    else symbolFault? (symbol :: seen) rest

/-- The first fault of some symbols. -/
def firstFault? (symbols : List Char) : Option AlphabetFault :=
  if symbols.all Text.isBlank then some .blank else symbolFault? [] symbols

/-- Symbols without a fault are symbols of tokens, distinct, and new with respect to those before. -/
theorem symbolFault?_eq_none {seen symbols : List Char} (h : symbolFault? seen symbols = none) :
    (∀ symbol ∈ symbols, isTokenChar symbol = true) ∧ symbols.Nodup ∧
      ∀ symbol ∈ symbols, symbol ∉ seen := by
  induction symbols generalizing seen with
  | nil => simp
  | cons symbol rest ih =>
    simp only [symbolFault?] at h
    split at h
    · cases h
    next htoken =>
    split at h
    · cases h
    next hnew =>
    obtain ⟨tokens, nodup, fresh⟩ := ih h
    refine ⟨?_, ?_, ?_⟩
    · exact List.forall_mem_cons.mpr ⟨by simpa using htoken, tokens⟩
    · exact List.nodup_cons.mpr ⟨fun hm => fresh symbol hm (by simp), nodup⟩
    · exact List.forall_mem_cons.mpr
        ⟨hnew, fun c hc hs => fresh c hc (List.mem_cons_of_mem _ hs)⟩

/-- The alphabet that some symbols make. -/
def ofSymbols (symbols : List Char) : Except AlphabetFault Alphabet :=
  match h : firstFault? symbols with
  | some fault => .error fault
  | none =>
    have hsome : symbols.all Text.isBlank = false := by
      cases hall : symbols.all Text.isBlank with
      | false => rfl
      | true => simp [firstFault?, hall] at h
    have hfaults : symbolFault? [] symbols = none := by simpa [firstFault?, hsome] using h
    .ok {
      symbols := symbols
      symbols_ne_nil := by rintro rfl; simp at hsome
      isTokenChar_symbol := (symbolFault?_eq_none hfaults).1
      nodup := (symbolFault?_eq_none hfaults).2.1 }

/-- How many symbols there are. -/
def size (alphabet : Alphabet) : Nat := alphabet.symbols.length

theorem size_pos (alphabet : Alphabet) : 0 < alphabet.size :=
  List.length_pos_iff.mpr alphabet.symbols_ne_nil

/-- The symbol of a number, modulo the size of the alphabet. -/
def symbol (alphabet : Alphabet) (n : Nat) : Char :=
  alphabet.symbols.get ⟨n % alphabet.size, Nat.mod_lt _ alphabet.size_pos⟩

/-- The symbols of a code from the first to the last, in at most `fuel` further steps. -/
def codeWithin (alphabet : Alphabet) : (fuel n : Nat) → List Char
  | 0, n => [alphabet.symbol n]
  | fuel + 1, n =>
    if n / alphabet.size = 0 then [alphabet.symbol n]
    else codeWithin alphabet fuel (n / alphabet.size - 1) ++ [alphabet.symbol n]

/-- The code of a number.  Every step makes the number smaller, so it is its own bound. -/
def code (alphabet : Alphabet) (n : Nat) : String := String.ofList (alphabet.codeWithin n n)

end Alphabet

end DocExpr
