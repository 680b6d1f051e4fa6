import DocExpr.Dict
import DocExpr.Error

/-!
# Paths

A path leads from the root of an item to a place inside it, by the names of fields and by the
ordinals of list elements.  An alias is another handle on the same place; nothing that is written or
resolved shows it.

A path is written in two ways: literally, with the names themselves, which is how messages and
updates identify a place; and with the placeholders of the names, which is how expressions do.

## Main definitions

* `Path.segments`: the names and ordinals along a path.
* `Path.render`: the text of a path, given what each name is written as.
* `Path.literal`, `Path.withNames`: the two ways to write a path.
-/

namespace DocExpr

/-- A place inside an item. -/
inductive Path where
  | root
  | field (parent : Path) (name : String)
  | element (parent : Path) (ordinal : Nat)
  | aliasOf (target : Path)
  deriving DecidableEq, Repr, Inhabited

/-- A step of a path. -/
inductive Segment where
  | field (name : String)
  | index (ordinal : Nat)
  deriving DecidableEq, Repr

namespace Path

/-- The field of the root with a name. -/
def ofName (name : String) : Path := root.field name

/-- Whether a path has no segments. -/
def isRoot : Path → Bool
  | root => true
  | aliasOf target => target.isRoot
  | field .. | element .. => false

/-- The names and ordinals along a path. -/
def segments : Path → List Segment
  | root => []
  | field parent name => parent.segments ++ [.field name]
  | element parent ordinal => parent.segments ++ [.index ordinal]
  | aliasOf target => target.segments

/-- The root is the place without segments. -/
theorem isRoot_iff (path : Path) : path.isRoot = true ↔ path.segments = [] := by
  induction path with
  | root => simp [isRoot, segments]
  | field parent name => simp [isRoot, segments]
  | element parent ordinal => simp [isRoot, segments]
  | aliasOf target ih => simpa [isRoot, segments] using ih

/-- The element of a place, which may not be the root. -/
def index (path : Path) (ordinal : Nat) : Except ExpressionError Path :=
  if path.isRoot then .error (.invalidPath (.elementOfRoot ordinal))
  else .ok (path.element ordinal)

/-- The names along a path. -/
def fieldNames (path : Path) : List String :=
  path.segments.filterMap fun
    | .field name => some name
    | .index _ => none

/-- Writes segments behind the text before them.  A point separates a name from what is before it,
and an ordinal needs something before it. -/
def renderSegments (nameOf : String → Except ExpressionError String) (written : String) :
    List Segment → Except ExpressionError String
  | [] => .ok written
  | .field name :: rest => do
    let text ← nameOf name
    renderSegments nameOf (if written = "" then text else written ++ "." ++ text) rest
  | .index ordinal :: rest =>
    if written = "" then .error (.invalidPath (.elementOfNothing ordinal))
    else renderSegments nameOf (written ++ "[" ++ toString ordinal ++ "]") rest

/-- The text of a path in which each name is written as `nameOf` tells. -/
def render (nameOf : String → Except ExpressionError String) (path : Path) :
    Except ExpressionError String :=
  if path.isRoot then .error (.invalidPath .bareRoot)
  else renderSegments nameOf "" path.segments

/-- Only the segments of a path are written. -/
theorem render_congr (nameOf : String → Except ExpressionError String) {path path' : Path}
    (h : path.segments = path'.segments) : path.render nameOf = path'.render nameOf := by
  have hroot : path.isRoot = path'.isRoot := by
    rw [Bool.eq_iff_iff, isRoot_iff, isRoot_iff, h]
  rw [render, render, hroot, h]

/-- The path with its own names. -/
def literal (path : Path) : Except ExpressionError String := path.render .ok

/-- The path with the placeholders that its names have. -/
def withNames (names : Dict String) (path : Path) : Except ExpressionError String :=
  path.render fun name =>
    match names.get? name with
    | some placeholder => .ok placeholder
    | none => .error (.unresolvedName name)

/-- A path in a message. -/
def display (path : Path) : String :=
  match path.literal with
  | .ok text => text
  | .error _ => "<root>"

end Path

end DocExpr
