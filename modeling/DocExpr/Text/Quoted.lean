import DocExpr.Text.Hidden

/-!
# Quoted text

Messages show a character between apostrophes, a string between quotation marks and a list of
strings between brackets.  `escape` writes one character: the delimiter in force and the backslash
take a backslash, NUL and the three common blanks their letter, a hidden character its number in
braces, and every other character stands for itself.
-/

namespace DocExpr.Text

/-- The number of a character in the escaped form, as in `\u{301}`. -/
def escapeNumber (c : Char) : List Char :=
  ['\\', 'u', '\x7b'] ++ Nat.toDigits 16 c.toNat ++ ['\x7d']

/-- One character as it stands between two `delimiter`s. -/
def escape (delimiter c : Char) : List Char :=
  if c = '\x00' then ['\\', '0']
  else if c = '\t' then ['\\', 't']
  else if c = '\r' then ['\\', 'r']
  else if c = '\n' then ['\\', 'n']
  else if c = '\\' || c = delimiter then ['\\', c]
  else if isHidden c then escapeNumber c
  else [c]

/-- A character between apostrophes. -/
def quoteChar (c : Char) : String :=
  String.ofList ('\'' :: escape '\'' c ++ ['\''])

/-- A string between quotation marks. -/
def quote (s : String) : String :=
  String.ofList ('"' :: s.toList.flatMap (escape '"') ++ ['"'])

/-- A list of strings between brackets, each one quoted. -/
def quoteList (items : List String) : String :=
  "[" ++ String.intercalate ", " (items.map quote) ++ "]"

end DocExpr.Text
