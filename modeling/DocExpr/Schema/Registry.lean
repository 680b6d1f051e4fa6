import DocExpr.Placeholder.Token
import DocExpr.Schema.Scalar

/-!
# Registries

A registry declares the fields of an entity: how each is named on the wire, whether it is part of
the key, which short code it prefers as a placeholder, and what it holds.  The entities of a family
refer to one another by number, so a schema may be recursive.

## Main definitions

* `Registry`: the declarations of an entity, which satisfy `Registry.WellFormed`.
* `Registry.build`: the registry of some declarations, or the first fault among them.
* `Registry.field?`: the declaration of a field.

## Main results

* `Registry.wellFormed_of_firstFault?`: declarations without a fault are well formed.
-/

namespace DocExpr

/-- What a field of an entity holds, in a family of `n` entities. -/
inductive FieldKind (n : Nat) where
  | scalar (type : ScalarType) (optional : Bool)
  | entity (of : Fin n)
  | entityList (of : Fin n)
  deriving DecidableEq, Repr

/-- The type of the attribute values that keep a field. -/
def FieldKind.attributeType {n : Nat} : FieldKind n → AttributeType
  | scalar type _ => type.attributeType
  | entity _ => .map
  | entityList _ => .list

/-- The declaration of a field. -/
structure Field (n : Nat) where
  name : String
  isKey : Bool := false
  code : Option String := none
  kind : FieldKind n
  deriving DecidableEq, Repr

/-- Why declarations make no registry. -/
inductive RegistryError where
  | emptyName (entity : String)
  | duplicateField (entity field : String)
  | invalidCode (entity code : String)
  | duplicateCode (entity code : String)
  deriving DecidableEq, Repr

def RegistryError.message : RegistryError → String
  | emptyName entity => "entity " ++ entity ++ " declares a field with an empty wire name"
  | duplicateField entity field =>
    "entity " ++ entity ++ " declares field '" ++ field ++ "' more than once"
  | invalidCode entity code =>
    "entity " ++ entity ++ " declares short code '" ++ code ++
      "', expected one or more of [A-Za-z0-9_]"
  | duplicateCode entity code =>
    "entity " ++ entity ++ " declares short code '" ++ code ++ "' more than once"

variable {n : Nat}

namespace Registry

/-- Names and short codes can be told apart, and every short code is a token. -/
structure WellFormed (fields : List (Field n)) : Prop where
  name_ne_empty : ∀ field ∈ fields, field.name ≠ ""
  names_nodup : (fields.map Field.name).Nodup
  isToken_code : ∀ code ∈ fields.filterMap Field.code, isToken code = true
  codes_nodup : (fields.filterMap Field.code).Nodup

/-- The first fault of some declarations, given the names and codes declared before them.  A field
is asked for its name before its code, and for the form of each before its uniqueness. -/
def firstFault? (entity : String) (names codes : List String) :
    List (Field n) → Option RegistryError
  | [] => none
  | field :: rest =>
    if field.name = "" then some (.emptyName entity)
    else if field.name ∈ names then some (.duplicateField entity field.name)
    else
      match field.code with
      | none => firstFault? entity (field.name :: names) codes rest
      | some code =>
        if isToken code = false then some (.invalidCode entity code)
        else if code ∈ codes then some (.duplicateCode entity code)
        else firstFault? entity (field.name :: names) (code :: codes) rest

/-- Declarations without a fault are well formed, and new with respect to those before them. -/
theorem firstFault?_eq_none {entity : String} {names codes : List String}
    {fields : List (Field n)} (h : firstFault? entity names codes fields = none) :
    WellFormed fields ∧ (∀ name ∈ fields.map Field.name, name ∉ names) ∧
      ∀ code ∈ fields.filterMap Field.code, code ∉ codes := by
  induction fields generalizing names codes with
  | nil => exact ⟨⟨by simp, by simp, by simp, by simp⟩, by simp, by simp⟩
  | cons field rest ih =>
    simp only [firstFault?] at h
    split at h
    · cases h
    next hname =>
    split at h
    · cases h
    next hnew =>
    split at h
    · next hcode =>
      obtain ⟨wf, hnames, hcodes⟩ := ih h
      have hfresh : field.name ∉ rest.map Field.name := fun hm => hnames _ hm (by simp)
      rw [List.filterMap_cons_none hcode]
      refine ⟨⟨?_, ?_, ?_, ?_⟩, ?_, hcodes⟩
      · exact List.forall_mem_cons.mpr ⟨hname, wf.name_ne_empty⟩
      · exact List.nodup_cons.mpr ⟨hfresh, wf.names_nodup⟩
      · simpa only [List.filterMap_cons_none hcode] using wf.isToken_code
      · simpa only [List.filterMap_cons_none hcode] using wf.codes_nodup
      · exact List.forall_mem_cons.mpr
          ⟨hnew, fun name hm hn => hnames name hm (List.mem_cons_of_mem _ hn)⟩
    · next code hcode =>
      split at h
      · cases h
      next htoken =>
      split at h
      · cases h
      next hunused =>
      obtain ⟨wf, hnames, hcodes⟩ := ih h
      have hfresh : field.name ∉ rest.map Field.name := fun hm => hnames _ hm (by simp)
      have hfreshCode : code ∉ rest.filterMap Field.code := fun hm => hcodes _ hm (by simp)
      rw [List.filterMap_cons_some hcode]
      refine ⟨⟨?_, ?_, ?_, ?_⟩, ?_, ?_⟩
      · exact List.forall_mem_cons.mpr ⟨hname, wf.name_ne_empty⟩
      · exact List.nodup_cons.mpr ⟨hfresh, wf.names_nodup⟩
      · rw [List.filterMap_cons_some hcode]
        exact List.forall_mem_cons.mpr ⟨by simpa using htoken, wf.isToken_code⟩
      · rw [List.filterMap_cons_some hcode]
        exact List.nodup_cons.mpr ⟨hfreshCode, wf.codes_nodup⟩
      · exact List.forall_mem_cons.mpr
          ⟨hnew, fun name hm hn => hnames name hm (List.mem_cons_of_mem _ hn)⟩
      · exact List.forall_mem_cons.mpr
          ⟨hunused, fun c hc hn => hcodes c hc (List.mem_cons_of_mem _ hn)⟩

theorem wellFormed_of_firstFault? {entity : String} {fields : List (Field n)}
    (h : firstFault? entity [] [] fields = none) : WellFormed fields :=
  (firstFault?_eq_none h).1

end Registry

/-- The declarations of an entity, in order. -/
structure Registry (n : Nat) where
  entity : String
  fields : List (Field n)
  wellFormed : Registry.WellFormed fields

/-- The registries of the entities that a schema speaks of. -/
abbrev Family (n : Nat) := Fin n → Registry n

namespace Registry

/-- The registry of some declarations, or the first fault among them. -/
def build (entity : String) (fields : List (Field n)) : Except RegistryError (Registry n) :=
  match h : firstFault? entity [] [] fields with
  | some fault => .error fault
  | none => .ok ⟨entity, fields, wellFormed_of_firstFault? h⟩

/-- The declaration of a field. -/
def field? (registry : Registry n) (name : String) : Option (Field n) :=
  registry.fields.find? fun field => field.name = name

/-- The names of the key fields, in order. -/
def keyNames (registry : Registry n) : List String :=
  (registry.fields.filter Field.isKey).map Field.name

end Registry

end DocExpr
