import DocExpr.Json.Basic
import DocExpr.Json.Text

/-!
# Reading JSON

`Json.read` turns a text into a tree and the text that follows it.  It never fails: where the text
stops being JSON the tree says so.  Arrays and objects may be nested as deep as `room` allows;
beyond that they are marked as too deep, and still read, because a member that nobody asks for may
hold them.

The recursion is on `fuel`.  A value starts with a character of its own and an item or member with
a bracket or comma before it, so twice the length of the text is enough.
-/

namespace DocExpr

namespace Json

/-- The blanks between the tokens of JSON. -/
def isJsonBlank (c : Char) : Bool := c = ' ' || c = '\n' || c = '\t' || c = '\r'

/-- The text from its first character that is not a blank. -/
def skipBlanks (cs : List Char) : List Char := cs.dropWhile isJsonBlank

/-- The fraction of a number: nothing, or a point and at least one digit. -/
def splitFraction? : List Char → Option (List Char × List Char)
  | '.' :: rest =>
    let (digits, rest) := rest.span Char.isDigit
    if digits.isEmpty then none else some ('.' :: digits, rest)
  | rest => some ([], rest)

/-- The sign of a power of ten. -/
def splitExponentSign : List Char → List Char × List Char
  | '+' :: rest => (['+'], rest)
  | '-' :: rest => (['-'], rest)
  | rest => ([], rest)

/-- The power of ten of a number: nothing, or a letter, an optional sign and at least one digit. -/
def splitExponent? : List Char → Option (List Char × List Char)
  | e :: rest =>
    if e = 'e' || e = 'E' then
      let (sign, rest) := splitExponentSign rest
      let (digits, rest) := rest.span Char.isDigit
      if digits.isEmpty then none else some (e :: sign ++ digits, rest)
    else some ([], e :: rest)
  | [] => some ([], [])

/-- The minus sign of a number. -/
def splitMinus : List Char → List Char × List Char
  | '-' :: rest => (['-'], rest)
  | rest => ([], rest)

/-- The number at the start of a text, and the text after it.  A number has no leading zeros. -/
def splitNumber? (cs : List Char) : Option (List Char × List Char) := do
  let (sign, afterSign) := splitMinus cs
  let (whole, afterWhole) := afterSign.span Char.isDigit
  if whole.isEmpty || (whole.head? = some '0' && whole.length != 1) then none
  else do
    let (fraction, afterFraction) ← splitFraction? afterWhole
    let (exponent, rest) ← splitExponent? afterFraction
    return (sign ++ whole ++ fraction ++ exponent, rest)

/-- The value at the start of a text that is neither array nor object, and the text after it. -/
def readScalar : List Char → Json × List Char
  | 'n' :: 'u' :: 'l' :: 'l' :: rest => (.null, rest)
  | 't' :: 'r' :: 'u' :: 'e' :: rest => (.bool true, rest)
  | 'f' :: 'a' :: 'l' :: 's' :: 'e' :: rest => (.bool false, rest)
  | '"' :: rest =>
    match JsonText.readPieces? rest with
    | none => (.broken, rest)
    | some (pieces, rest) =>
      match JsonText.joinPieces? pieces with
      | none => (.illegible, rest)
      | some text => (.string (String.ofList text), rest)
  | cs =>
    match splitNumber? cs with
    | none => (.broken, cs)
    | some (literal, rest) => (.number (String.ofList literal), rest)

/-- Marks a container for which there is no room. -/
def nest (room : Nat) (container : Json) : Json := if room = 0 then .deep container else container

mutual

/-- The value at the start of a text, and the text after it. -/
def readValue : (fuel room : Nat) → List Char → Json × List Char
  | 0, _, cs => (.broken, cs)
  | fuel + 1, room, cs =>
    match skipBlanks cs with
    | '[' :: rest =>
      match skipBlanks rest with
      | ']' :: rest => (nest room (.array .close), rest)
      | rest =>
        let (items, rest) := readItems fuel (room - 1) rest
        (nest room (.array items), rest)
    | '\x7b' :: rest =>
      match skipBlanks rest with
      | '\x7d' :: rest => (nest room (.object .close), rest)
      | rest =>
        let (members, rest) := readMembers fuel (room - 1) rest
        (nest room (.object members), rest)
    | cs => readScalar cs

/-- The items of an array from the first one on, and the text after the closing bracket. -/
def readItems : (fuel room : Nat) → List Char → JsonItems × List Char
  | 0, _, cs => (.cut, cs)
  | fuel + 1, room, cs =>
    let (item, rest) := readValue fuel room cs
    match skipBlanks rest with
    | ',' :: rest =>
      let (items, rest) := readItems fuel room rest
      (.cons item items, rest)
    | ']' :: rest => (.cons item .close, rest)
    | rest => (.cons item .cut, rest)

/-- The members of an object from the first name on, and the text after the closing brace. -/
def readMembers : (fuel room : Nat) → List Char → JsonMembers × List Char
  | 0, _, cs => (.cut, cs)
  | fuel + 1, room, cs =>
    match skipBlanks cs with
    | '"' :: rest =>
      match JsonText.readPieces? rest with
      | none => (.cut, rest)
      | some (pieces, rest) =>
        let name := (JsonText.joinPieces? pieces).map String.ofList
        match skipBlanks rest with
        | ':' :: rest =>
          let (value, rest) := readValue fuel room rest
          match skipBlanks rest with
          | ',' :: rest =>
            let (members, rest) := readMembers fuel room rest
            (.cons name value members, rest)
          | '\x7d' :: rest => (.cons name value .close, rest)
          | rest => (.cons name value .cut, rest)
        | rest => (.cons name .broken .cut, rest)
    | rest => (.cut, rest)

end

/-- How deep the arrays and objects of a text may be nested. -/
def nestingLimit : Nat := 127

end Json

/-- A text read as JSON: its value, and whether nothing but blanks follows it. -/
structure JsonDocument where
  value : Json
  isComplete : Bool
  deriving DecidableEq, Repr

/-- Reads a text that holds one JSON value. -/
def Json.read (s : String) (room : Nat := Json.nestingLimit) : JsonDocument :=
  let (value, rest) := Json.readValue (2 * s.toList.length + 2) room s.toList
  ⟨value, (skipBlanks rest).isEmpty⟩

end DocExpr
