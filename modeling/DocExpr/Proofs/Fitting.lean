import DocExpr.Proofs.NumberText
import DocExpr.Record.Basic
import Mathlib.Data.List.Forall2

/-!
# Records that fit their declarations

A record fits an entity if it has the declared fields, in order, each with a value of its kind.
These are the records that a program can hold: a number is in the range of its type, a set is
ascending, and only a field that starts without a value may be without one.

## Main definitions

* `ScalarType.Holds`: the values of a scalar type
* `FieldValue.Fits`, `Record.Fits`: the values of a field and the records of an entity

## Main results

* `Record.Fits.exists_field`: each entry of a record is the value of a declared field
* `Registry.default_fits`: the record whose fields were never given a value fits
-/

namespace DocExpr

variable {n : Nat} {family : Family n}

/-! ## Records that fit -/

/-- The values of a scalar type: numbers in range, and sets in ascending order. -/
def ScalarType.Holds : ScalarType → ScalarValue → Prop
  | .string, .string _ | .bool, .bool _ | .strings, .strings _ | .bytes, .bytes _ => True
  | .integer type, .integer value => type.contains value = true
  | .float format, .float format' value => format' = format ∧ format.Holds value
  | .stringSet, .stringSet members => members.Pairwise (· < ·)
  | .integerSet, .integerSet members =>
    members.Pairwise (· < ·) ∧ ∀ member ∈ members, IntegerType.int64.contains member = true
  | _, _ => False

mutual

/-- The values of a field.  Only a field that starts without a value may be without one. -/
def FieldValue.Fits (family : Family n) : FieldKind n → FieldValue → Prop
  | kind, .absent => kind.default = .absent
  | .scalar type _, .scalar value => type.Holds value
  | .entity of, .entity fields => EntriesFit family (family of).fields fields
  | .entityList of, .entities elements => ElementsFit family of elements
  | _, _ => False

/-- Each declared field, in order, with a value of its kind. -/
def EntriesFit (family : Family n) : List (Field n) → List (String × FieldValue) → Prop
  | [], [] => True
  | field :: fields, (name, value) :: rest =>
    (name = field.name ∧ value.Fits family field.kind) ∧ EntriesFit family fields rest
  | _, _ => False

/-- Records that fit the same entity. -/
def ElementsFit (family : Family n) (of : Fin n) : List (List (String × FieldValue)) → Prop
  | [] => True
  | fields :: rest => EntriesFit family (family of).fields fields ∧ ElementsFit family of rest

end

/-- The records of an entity. -/
def Record.Fits (family : Family n) (of : Fin n) (record : Record) : Prop :=
  EntriesFit family (family of).fields record

/-- Induction over the values of fields, where nested records know their property of every field. -/
@[elab_as_elim, induction_eliminator]
theorem FieldValue.induct {motive : FieldValue → Prop}
    (absent : motive .absent)
    (scalar : ∀ value, motive (.scalar value))
    (entity : ∀ fields : Record, (∀ entry ∈ fields, motive entry.2) → motive (.entity fields))
    (entities : ∀ elements : List Record, (∀ fields ∈ elements, ∀ entry ∈ fields, motive entry.2) →
      motive (.entities elements))
    (value : FieldValue) : motive value :=
  @FieldValue.rec motive (fun fields => ∀ entry ∈ fields, motive entry.2)
    (fun elements => ∀ fields ∈ elements, ∀ entry ∈ fields, motive entry.2)
    (fun entry => motive entry.2)
    absent scalar entity entities
    (by simp) (fun _ _ hentry hentries => List.forall_mem_cons.mpr ⟨hentry, hentries⟩)
    (by simp) (fun _ _ hfields helements => List.forall_mem_cons.mpr ⟨hfields, helements⟩)
    (fun _ _ h => h) value

theorem FieldValue.fits_absent_iff {kind : FieldKind n} :
    FieldValue.absent.Fits family kind ↔ kind.default = .absent := by
  cases kind <;> rfl

theorem entriesFit_iff {fields : List (Field n)} {record : Record} :
    EntriesFit family fields record ↔
      List.Forall₂ (fun field entry => entry.1 = field.name ∧ entry.2.Fits family field.kind)
        fields record := by
  induction fields generalizing record with
  | nil => cases record <;> simp [EntriesFit]
  | cons field fields ih => rcases record with _ | ⟨⟨name, value⟩, rest⟩ <;> simp [EntriesFit, ih]

theorem elementsFit_iff {of : Fin n} {elements : List Record} :
    ElementsFit family of elements ↔ ∀ record ∈ elements, record.Fits family of := by
  induction elements with
  | nil => simp [ElementsFit]
  | cons record rest ih => rw [ElementsFit, ih, List.forall_mem_cons, Record.Fits]

/-- A declared name leads to its own declaration. -/
theorem Registry.field?_eq_some_iff {registry : Registry n} {name : String} {field : Field n} :
    registry.field? name = some field ↔ field ∈ registry.fields ∧ field.name = name := by
  constructor
  · intro h
    exact ⟨List.mem_of_find?_eq_some h, by simpa using List.find?_some h⟩
  · rintro ⟨hfield, rfl⟩
    have hfound : (registry.field? field.name).isSome :=
      List.find?_isSome.mpr ⟨field, hfield, by simp⟩
    obtain ⟨found, hfound⟩ := Option.isSome_iff_exists.mp hfound
    have hname : found.name = field.name := by simpa using List.find?_some hfound
    rw [hfound, List.inj_on_of_nodup_map registry.wellFormed.names_nodup
      (List.mem_of_find?_eq_some hfound) hfield hname]

namespace Record.Fits

variable {of : Fin n} {record : Record}

/-- The names of a record are the declared ones. -/
theorem keys_eq (h : record.Fits family of) : record.keys = (family of).fields.map Field.name := by
  have hfields := entriesFit_iff.mp h
  clear h
  generalize (family of).fields = fields at hfields ⊢
  induction hfields with
  | nil => rfl
  | cons hentry _ ih => exact congrArg₂ List.cons hentry.1 ih

theorem nodup_keys (h : record.Fits family of) : record.keys.Nodup :=
  h.keys_eq ▸ (family of).wellFormed.names_nodup

/-- Each entry is the value of a declared field. -/
theorem exists_field (h : record.Fits family of) {name : String} {value : FieldValue}
    (hentry : (name, value) ∈ record) :
    ∃ field, (family of).field? name = some field ∧ value.Fits family field.kind := by
  obtain ⟨i, hi, hget⟩ := List.getElem_of_mem hentry
  obtain ⟨hlength, hfields⟩ := List.forall₂_iff_get.mp (entriesFit_iff.mp h)
  have hfield := hfields i (hlength ▸ hi) hi
  rw [List.get_eq_getElem, List.get_eq_getElem, hget] at hfield
  exact ⟨_, Registry.field?_eq_some_iff.mpr ⟨List.getElem_mem _, hfield.1.symm⟩, hfield.2⟩

end Record.Fits

/-! ## The defaults -/

theorem ScalarType.default_holds (type : ScalarType) : type.Holds type.default := by
  cases type with
  | integer type => cases type <;> rfl
  | float format => exact ⟨rfl, format.holds_zero false⟩
  | _ => simp [Holds, ScalarType.default]

theorem FieldKind.default_fits (kind : FieldKind n) : kind.default.Fits family kind := by
  cases kind with
  | scalar type optional =>
    cases optional with
    | true => rfl
    | false => exact type.default_holds
  | entity of => rfl
  | entityList of => trivial

/-- **What a field holds that was never given a value fits its declaration.** -/
theorem Registry.default_fits (family : Family n) (of : Fin n) :
    (family of).default.Fits family of := by
  rw [Record.Fits, entriesFit_iff, Registry.default, List.forall₂_map_right_iff, List.forall₂_same]
  exact fun field _ => ⟨rfl, field.kind.default_fits⟩

/-! ## An example -/

/-- A family of three entities.  A shelf has a label, books, and perhaps a shelf above it; a book
has a title, tags, and perhaps a weight and a binding of some material. -/
def shelves : Family 3
  | 0 => {
    entity := "Shelf"
    fields := [
      { name := "label", isKey := true, kind := .scalar .string false },
      { name := "books", kind := .entityList 1 },
      { name := "above", kind := .entity 0 }]
    wellFormed := ⟨by decide, by decide, by decide, by decide⟩ }
  | 1 => {
    entity := "Book"
    fields := [
      { name := "title", kind := .scalar .string false },
      { name := "weight", kind := .scalar (.float .single) true },
      { name := "tags", code := some "T", kind := .scalar .stringSet false },
      { name := "binding", kind := .entity 2 }]
    wellFormed := ⟨by decide, by decide, by decide, by decide⟩ }
  | 2 => {
    entity := "Binding"
    fields := [{ name := "material", kind := .scalar .string false }]
    wellFormed := ⟨by decide, by decide, by decide, by decide⟩ }

/-- A shelf with a book of half a pound, bound in cloth, below an empty shelf. -/
def shelf : Record := [
  ("label", .scalar (.string "low")),
  ("books", .entities [[
    ("title", .scalar (.string "Emma")),
    ("weight", .scalar (.float .single (.finite false 8388608 (-24)))),
    ("tags", .scalar (.stringSet ["novel", "old"])),
    ("binding", .entity [("material", .scalar (.string "cloth"))])]]),
  ("above", .entity [
    ("label", .scalar (.string "high")),
    ("books", .entities []),
    ("above", .absent)])]

theorem shelf_fits : shelf.Fits shelves 0 := by
  have hweight : FloatFormat.single.Holds (.finite false 8388608 (-24)) :=
    ⟨by decide, by decide, by decide, .inl (by decide)⟩
  have htags : ["novel", "old"].Pairwise (· < ·) := by decide
  have hbinding : EntriesFit shelves (shelves 2).fields
      [("material", .scalar (.string "cloth"))] := ⟨⟨rfl, trivial⟩, trivial⟩
  exact ⟨⟨rfl, trivial⟩, ⟨rfl, ⟨⟨rfl, trivial⟩, ⟨rfl, rfl, hweight⟩, ⟨rfl, htags⟩, ⟨rfl, hbinding⟩,
    trivial⟩, trivial⟩, ⟨rfl, ⟨rfl, trivial⟩, ⟨rfl, trivial⟩, ⟨rfl, rfl⟩, trivial⟩, trivial⟩

end DocExpr
