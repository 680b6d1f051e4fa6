import DocExpr.Json.Decode
import DocExpr.Json.Writer

/-!
# Configuration

Which symbols placeholders are made of, and whether requests are checked before they are handed
out.  A configuration comes from the environment of a deployment or from a JSON object.
-/

namespace DocExpr

structure Config where
  /-- The symbols of minted placeholders, in order. -/
  alphabet : String := "ABCDEFGHIJKLMNOPQRSTUVWXYZ"
  /-- Whether the placeholders of a request are checked. -/
  validate : Bool := true
  deriving DecidableEq, Repr, Inhabited

namespace Config

/-- The words of the environment that stand for yes. -/
def affirmations : List String := ["1", "true", "yes", "TRUE", "YES"]

/-- The configuration under two settings of the environment, each of which may be missing. -/
def ofEnvironment (alphabet validate : Option String) : Config :=
  let standard : Config := {}
  { alphabet := alphabet.getD standard.alphabet
    validate := (validate.map fun word => decide (word ∈ affirmations)).getD standard.validate }

def alphabetMember : String := "placeholderAlphabet"

def validateMember : String := "validatePlaceholders"

def toJson (config : Config) : Json :=
  .ofMembers [
    (alphabetMember, .string config.alphabet), (validateMember, .bool config.validate)]

/-- The members of a configuration met so far. -/
structure Draft where
  alphabet? : Option String := none
  validate? : Option Bool := none

namespace Draft

/-- What the known members do with their values; none may occur twice. -/
def member? (name : String) : Option (Json → Draft → Except DecodeError Draft) :=
  if name = alphabetMember then
    some fun json draft => do
      if draft.alphabet?.isSome then throw .malformed
      return { draft with alphabet? := some (← json.text?) }
  else if name = validateMember then
    some fun json draft => do
      if draft.validate?.isSome then throw .malformed
      return { draft with validate? := some (← json.flag?) }
  else none

/-- The configuration, if no member is missing. -/
def finish (draft : Draft) : Except DecodeError Config :=
  match draft.alphabet?, draft.validate? with
  | none, _ => .error (.missingField alphabetMember)
  | some _, none => .error (.missingField validateMember)
  | some alphabet, some validate => .ok { alphabet, validate }

end Draft

/-- The configuration that an object writes, or an array of its values in order. -/
def ofJson : Json → Except DecodeError Config
  | .object members => do
    let draft ← members.collect Draft.member? {}
    draft.finish
  | .array (.cons first (.cons second .close)) => do
    let alphabet ← first.text?
    let validate ← second.flag?
    return { alphabet, validate }
  | _ => .error .malformed

end Config

end DocExpr
