import DocExpr.Attribute.Value
import DocExpr.Error
import DocExpr.Ordered

/-!
# References

A store refuses a request in which an expression mentions a placeholder that is not declared, and
one that declares a placeholder which no expression mentions.  `checkPlaceholders` looks for both.

A reference is a sigil and the longest run of token characters behind it; a sigil without such a run
is no reference.  No token character is a sigil, so the scan can go on right behind the sigil.
-/

namespace DocExpr

/-- Whether a character introduces a placeholder. -/
def isSigil (c : Char) : Bool := c = '#' || c = ':'

/-- The placeholders that a text mentions, in order. -/
def references : List Char → List String
  | [] => []
  | c :: rest =>
    if isSigil c && (rest.head?.map isTokenChar).getD false then
      String.ofList (c :: rest.takeWhile isTokenChar) :: references rest
    else references rest

/-- Checks that the expressions of a request mention exactly the declared placeholders.  An
undeclared one is reported before an unused one, and of several the least. -/
def checkPlaceholders (expressions : List String) (names : Dict String)
    (values : Dict AttributeValue) : Except ExpressionError Unit :=
  let mentioned := expressions.flatMap fun expression => references expression.toList
  let undeclared := mentioned.filter fun placeholder =>
    !names.contains placeholder && !values.contains placeholder
  match Ordered.least? undeclared with
  | some placeholder => .error (.undefinedPlaceholder placeholder)
  | none =>
    let unused := (names.keys ++ values.keys).filter fun placeholder => placeholder ∉ mentioned
    match Ordered.least? unused with
    | some placeholder => .error (.unusedPlaceholder placeholder)
    | none => .ok ()

end DocExpr
