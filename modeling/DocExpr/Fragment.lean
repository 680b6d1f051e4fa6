import DocExpr.Attribute.Value

/-!
# Fragments of expressions

A fragment is a piece of expression text together with what its placeholders mean.  Larger
fragments are put together from smaller ones, so a fragment always comes with the entries of the
placeholders that it mentions.
-/

namespace DocExpr

structure Fragment where
  text : String
  /-- The field of each name placeholder. -/
  names : Dict String := ∅
  /-- The value of each value placeholder. -/
  values : Dict AttributeValue := ∅
  deriving Repr

namespace Fragment

/-- The empty text. -/
def empty : Fragment := { text := "" }

/-- Text without placeholders. -/
def ofText (text : String) : Fragment := { text }

/-- One fragment after the other. -/
def append (a b : Fragment) : Fragment :=
  ⟨a.text ++ b.text, a.names.merge b.names, a.values.merge b.values⟩

instance : Append Fragment := ⟨append⟩

/-- Fragments in a row, with a text between any two. -/
def join (separator : String) : List Fragment → Fragment
  | [] => empty
  | [a] => a
  | a :: b :: rest => a ++ ofText separator ++ join separator (b :: rest)

/-- A fragment between two texts. -/
def enclose (before : String) (a : Fragment) (after : String) : Fragment :=
  ofText before ++ a ++ ofText after

/-- A function applied to some arguments. -/
def call (function : String) (arguments : List Fragment) : Fragment :=
  enclose (function ++ "(") (join ", " arguments) ")"

end Fragment

end DocExpr
