import DocExpr.Dict
import DocExpr.Json.Reader

/-!
# Decoding JSON

What every decoder of a JSON text shares: the reasons for which a text is refused, and the walk over
the members of an object.  Decoders go through the tree in the order of the text and stop at the
first problem.
-/

namespace DocExpr

/-- Why a text does not decode. -/
inductive DecodeError where
  /-- The text is not JSON, or its values have the wrong shape. -/
  | malformed
  /-- An attribute value without a tag. -/
  | untagged
  | unknownTag (name : String)
  | missingField (name : String)
  deriving DecidableEq, Repr

namespace Json

def text? : Json → Except DecodeError String
  | .string text => .ok text
  | _ => .error .malformed

def flag? : Json → Except DecodeError Bool
  | .bool flag => .ok flag
  | _ => .error .malformed

end Json

/-- The strings of an array of strings. -/
def JsonItems.texts? : JsonItems → Except DecodeError (List String)
  | .close => .ok []
  | .cut => .error .malformed
  | .cons head tail => do
    let text ← head.text?
    let texts ← tail.texts?
    return text :: texts

/-- The members of an object of like values. -/
def JsonMembers.decodeEntries {α : Type} (decode : Json → Except DecodeError α) :
    JsonMembers → Entries α → Except DecodeError (Entries α)
  | .close, entries => .ok entries
  | .cut, _ => .error .malformed
  | .cons none _ _, _ => .error .malformed
  | .cons (some name) value tail, entries => do
    let decoded ← decode value
    tail.decodeEntries decode (entries.set name decoded)

/-- Takes up the members of an object one by one: `member?` says what a known name does with its
value; the value of any other name only has to be JSON. -/
def JsonMembers.collect {σ : Type} (member? : String → Option (Json → σ → Except DecodeError σ)) :
    JsonMembers → σ → Except DecodeError σ
  | .close, state => .ok state
  | .cut, _ => .error .malformed
  | .cons none _ _, _ => .error .malformed
  | .cons (some name) value tail, state =>
    match member? name with
    | some take => do
      let state ← take value state
      tail.collect member? state
    | none => if value.isIntact then tail.collect member? state else .error .malformed

/-- Decodes a text that holds one JSON value.  What follows the value is looked at last. -/
def decodeText {α : Type} (decode : Json → Except DecodeError α) (s : String) :
    Except DecodeError α := do
  let document := Json.read s
  let decoded ← decode document.value
  if document.isComplete then return decoded else throw .malformed

end DocExpr
