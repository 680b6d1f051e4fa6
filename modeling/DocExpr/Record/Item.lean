import DocExpr.Record.Basic

/-!
# Records and items

The two directions between a record and the item that keeps it in the store.

Reading an item starts from the defaults and takes up the entries one by one.  An entry whose name
is not declared, or whose value is null, says nothing about the record; every other entry has to
decode by the rule of its field.  Writing a record gives an entry to each field that is present and
refuses a number that no store can hold.

## Main definitions

* `Family.transform`: the record that an item keeps.
* `Family.exportItem`, `Family.exportKey`: the item that keeps all fields of a record, or its key.
-/

namespace DocExpr

variable {n : Nat}

/-- A value that should have been the map of an entity. -/
def Registry.notAnEntity (registry : Registry n) (value : AttributeValue) : MappingError :=
  .field registry.entity (.typeMismatch .map value.type)

mutual

/-- The value of a field that an attribute value keeps. -/
def decodeField (family : Family n) (name : String) :
    FieldKind n → AttributeValue → Except MappingError FieldValue
  | .scalar type _, value =>
    match type.decode value with
    | .ok decoded => .ok (.scalar decoded)
    | .error cause => .error (.field name cause)
  | .entity of, .map entries =>
    match decodeEntries family of entries (family of).default with
    | .ok record => .ok (.entity record)
    | .error cause => .error (.nested name cause)
  | .entity of, value => .error (.nested name ((family of).notAnEntity value))
  | .entityList of, .list items => .entities <$> decodeElements family name of 0 items
  | .entityList _, value => .error (.field name (.typeMismatch .list value.type))

/-- Takes up the entries of an item one by one. -/
def decodeEntries (family : Family n) (of : Fin n) :
    List (String × AttributeValue) → Record → Except MappingError Record
  | [], record => .ok record
  | (name, value) :: rest, record =>
    match (family of).field? name with
    | none => decodeEntries family of rest record
    | some field =>
      if value.isNull then decodeEntries family of rest record
      else do
        let decoded ← decodeField family name field.kind value
        decodeEntries family of rest (Entries.set record name decoded)

/-- The records of the elements of a list field, from an index on. -/
def decodeElements (family : Family n) (name : String) (of : Fin n) (index : Nat) :
    List AttributeValue → Except MappingError (List Record)
  | [] => .ok []
  | .map entries :: rest =>
    match decodeEntries family of entries (family of).default with
    | .error cause => .error (.nested (elementName name index) cause)
    | .ok record => do
      let records ← decodeElements family name of (index + 1) rest
      return record :: records
  | value :: _ => .error (.nested (elementName name index) ((family of).notAnEntity value))

end

mutual

/-- The attribute value that keeps a field, if the field is present. -/
def encodeField (family : Family n) (name : String) (kind : FieldKind n) :
    FieldValue → Except MappingError (Option AttributeValue)
  | .absent => .ok none
  | .scalar value =>
    match value.encode.invalidNumber? with
    | some numeral => .error (.field name (.invalidNumber numeral))
    | none => .ok (some value.encode)
  | .entity fields =>
    match kind with
    | .entity of =>
      match encodeFields family of (fun _ => true) fields with
      | .ok entries => .ok (some (.map entries))
      | .error cause => .error (.nested name cause)
    | _ => .ok none
  | .entities elements =>
    match kind with
    | .entityList of => (some ∘ .list) <$> encodeElements family name of 0 elements
    | _ => .ok none

/-- The entries that keep those fields of a record that are asked for. -/
def encodeFields (family : Family n) (of : Fin n) (select : Field n → Bool) :
    List (String × FieldValue) → Except MappingError (List (String × AttributeValue))
  | [] => .ok []
  | (name, value) :: rest =>
    match (family of).field? name with
    | none => encodeFields family of select rest
    | some field =>
      if select field then do
        let encoded ← encodeField family name field.kind value
        let entries ← encodeFields family of select rest
        match encoded with
        | some kept => return (name, kept) :: entries
        | none => return entries
      else encodeFields family of select rest

/-- The maps that keep the elements of a list field, from an index on. -/
def encodeElements (family : Family n) (name : String) (of : Fin n) (index : Nat) :
    List (List (String × FieldValue)) → Except MappingError (List AttributeValue)
  | [] => .ok []
  | fields :: rest =>
    match encodeFields family of (fun _ => true) fields with
    | .error cause => .error (.nested (elementName name index) cause)
    | .ok entries => do
      let items ← encodeElements family name of (index + 1) rest
      return .map entries :: items

end

namespace Family

/-- The record of an entity that an item keeps. -/
def transform (family : Family n) (of : Fin n) (item : Item) : Except MappingError Record :=
  decodeEntries family of item.entries (family of).default

/-- The item that keeps a record. -/
def exportItem (family : Family n) (of : Fin n) (record : Record) : Except MappingError Item :=
  Dict.ofList <$> encodeFields family of (fun _ => true) record

/-- The item that keeps the key of a record. -/
def exportKey (family : Family n) (of : Fin n) (record : Record) : Except MappingError Item :=
  Dict.ofList <$> encodeFields family of Field.isKey record

end Family

end DocExpr
