import DocExpr.Proofs.Except
import DocExpr.Proofs.Fitting
import DocExpr.Proofs.Reordering
import DocExpr.Record.Item

/-!
# What is kept of a record

Writing a record may fail, and names the field for which it does.  What is written when it does not
fail is a plain function of the record, `FieldValue.kept?` for a field and `keptEntries` for a
record; and it fails exactly when what would be written holds a number that no store can hold.

What a record keeps that fits its entity has the types that the schema tells, and distinct names in
every map.

## Main definitions

* `FieldValue.kept?`, `keptEntries`, `keptElements`: what is written
* `Record.part`: the entries of the fields that are selected
* `AttributeValue.Storable`: every number inside is finite

## Main results

* `encodeFields_eq_ok_iff`, `Record.Fits.exportItem_eq_ok_iff`: when writing succeeds, and with what
* `FieldValue.Fits.type_kept`, `FieldValue.Fits.isNull_kept`: what is written has the declared type
* `Record.Fits.wellFormed_kept`: what is written is well formed
-/

namespace DocExpr

variable {n : Nat} {family : Family n}

/-! ## What is written -/

mutual

/-- The attribute value that keeps a field, if there is one. -/
def FieldValue.kept? (family : Family n) : FieldKind n → FieldValue → Option AttributeValue
  | _, .absent => none
  | _, .scalar value => some value.encode
  | .entity of, .entity fields => some (.map (keptEntries family of fields))
  | .entityList of, .entities elements => some (.list (keptElements family of elements))
  | _, _ => none

/-- The entries that keep a record. -/
def keptEntries (family : Family n) (of : Fin n) :
    List (String × FieldValue) → List (String × AttributeValue)
  | [] => []
  | (name, value) :: rest =>
    match ((family of).field? name).bind fun field => value.kept? family field.kind with
    | none => keptEntries family of rest
    | some kept => (name, kept) :: keptEntries family of rest

/-- The maps that keep some records. -/
def keptElements (family : Family n) (of : Fin n) :
    List (List (String × FieldValue)) → List AttributeValue
  | [] => []
  | fields :: rest => .map (keptEntries family of fields) :: keptElements family of rest

end

theorem keptElements_eq (of : Fin n) (elements : List Record) :
    keptElements family of elements =
      elements.map fun record => .map (keptEntries family of record) := by
  induction elements with
  | nil => rw [keptElements, List.map_nil]
  | cons record rest ih => rw [keptElements, ih, List.map_cons]

/-- The entries are those of the fields that keep something. -/
theorem keptEntries_eq (of : Fin n) (record : Record) :
    keptEntries family of record = record.filterMap fun entry =>
      (((family of).field? entry.1).bind fun field => entry.2.kept? family field.kind).map
        (entry.1, ·) := by
  induction record with
  | nil => rw [keptEntries, List.filterMap_nil]
  | cons entry rest ih =>
    obtain ⟨name, value⟩ := entry
    rw [keptEntries, ih, List.filterMap_cons]
    cases ((family of).field? name).bind fun field => value.kept? family field.kind <;> rfl

theorem mem_keptEntries_iff {of : Fin n} {record : Record} {name : String} {kept : AttributeValue} :
    (name, kept) ∈ keptEntries family of record ↔
      ∃ value, (name, value) ∈ record ∧ ∃ field, (family of).field? name = some field ∧
        value.kept? family field.kind = some kept := by
  simp only [keptEntries_eq, List.mem_filterMap, Option.map_eq_some_iff, Option.bind_eq_some_iff,
    Prod.exists, Prod.mk.injEq]
  constructor
  · rintro ⟨_, value, hentry, _, hfield, rfl, rfl⟩
    exact ⟨value, hentry, hfield⟩
  · rintro ⟨value, hentry, hfield⟩
    exact ⟨name, value, hentry, kept, hfield, rfl, rfl⟩

/-- Names stay in order, and none is added. -/
theorem keys_keptEntries_sublist (of : Fin n) (record : Record) :
    (Entries.keys (keptEntries family of record)).Sublist record.keys := by
  induction record with
  | nil => simp [keptEntries, Entries.keys]
  | cons entry rest ih =>
    obtain ⟨name, value⟩ := entry
    rw [keptEntries]
    split
    · exact ih.cons _
    · exact ih.cons_cons _

/-! ## When writing succeeds -/

namespace AttributeValue

/-- Every number inside a value is finite. -/
def Storable (value : AttributeValue) : Prop := value.invalidNumber? = none

theorem storable_list_iff {items : List AttributeValue} :
    (AttributeValue.list items).Storable ↔ ∀ item ∈ items, item.Storable := by
  rw [Storable, invalidNumber?]
  induction items with
  | nil => simp [invalidNumberIn?]
  | cons item rest ih =>
    rw [invalidNumberIn?, Option.or_eq_none_iff, ih, List.forall_mem_cons, Storable]

theorem storable_map_iff {entries : Entries AttributeValue} :
    (AttributeValue.map entries).Storable ↔ ∀ entry ∈ entries, entry.2.Storable := by
  rw [Storable, invalidNumber?]
  induction entries with
  | nil => simp [invalidNumberAmong?]
  | cons entry rest ih =>
    rw [invalidNumberAmong?, Option.or_eq_none_iff, ih, List.forall_mem_cons, Storable]

end AttributeValue

/-- Writing a field succeeds exactly when what it keeps can be stored. -/
def FieldValue.WrittenAsKept (family : Family n) (value : FieldValue) : Prop :=
  ∀ name kind image?, encodeField family name kind value = .ok image? ↔
    image? = value.kept? family kind ∧ ∀ kept ∈ value.kept? family kind, kept.Storable

section Writing

variable {of : Fin n}

theorem encodeFields_eq_ok_iff_of {record : Record}
    (h : ∀ entry ∈ record, entry.2.WrittenAsKept family) {entries : Entries AttributeValue} :
    encodeFields family of (fun _ => true) record = .ok entries ↔
      entries = keptEntries family of record ∧
        ∀ entry ∈ keptEntries family of record, entry.2.Storable := by
  -- The induction is on the entries; what nested records do is known from the outer induction.
  induction record generalizing entries with
  | nil => simp [encodeFields, keptEntries, eq_comm]
  | cons entry rest ih =>
    obtain ⟨name, value⟩ := entry
    obtain ⟨hvalue, hrest⟩ := List.forall_mem_cons.mp h
    rw [encodeFields, keptEntries]
    cases (family of).field? name with
    | none => exact ih hrest
    | some field =>
      simp only [if_true, Except.bind_eq_ok_iff, hvalue _ _ _, ih hrest, Option.bind_some,
        and_assoc, exists_eq_left]
      cases value.kept? family field.kind with
      | none => simp [pure, Except.pure, eq_comm, and_comm]
      | some kept =>
        simp only [Option.mem_some_iff, forall_eq', List.forall_mem_cons, pure, Except.pure,
          Except.ok.injEq]
        exact ⟨fun ⟨hkept, hentries, heq⟩ => ⟨heq.symm, hkept, hentries⟩,
          fun ⟨heq, hkept, hentries⟩ => ⟨hkept, hentries, heq.symm⟩⟩

theorem encodeElements_eq_ok_iff_of {elements : List Record}
    (h : ∀ record ∈ elements, ∀ entry ∈ record, entry.2.WrittenAsKept family)
    {name : String} {index : Nat} {items : List AttributeValue} :
    encodeElements family name of index elements = .ok items ↔
      items = keptElements family of elements ∧
        ∀ item ∈ keptElements family of elements, item.Storable := by
  induction elements generalizing index items with
  | nil => simp [encodeElements, keptElements, eq_comm]
  | cons record rest ih =>
    obtain ⟨hrecord, hrest⟩ := List.forall_mem_cons.mp h
    have hcons : encodeElements family name of index (record :: rest) = .ok items ↔
        ∃ entries, encodeFields family of (fun _ => true) record = .ok entries ∧
          ∃ others, encodeElements family name of (index + 1) rest = .ok others ∧
            .map entries :: others = items := by
      rw [encodeElements]
      cases encodeFields family of (fun _ => true) record <;>
        simp [Except.bind_eq_ok_iff, pure, Except.pure]
    simp only [hcons, encodeFields_eq_ok_iff_of hrecord, ih hrest, and_assoc, exists_eq_left,
      keptElements, List.forall_mem_cons, AttributeValue.storable_map_iff]
    exact ⟨fun ⟨hentries, hitems, heq⟩ => ⟨heq.symm, hentries, hitems⟩,
      fun ⟨heq, hentries, hitems⟩ => ⟨hentries, hitems, heq.symm⟩⟩

end Writing

/-- **Writing a field succeeds exactly when what it keeps can be stored**, at any depth. -/
theorem FieldValue.writtenAsKept (value : FieldValue) : value.WrittenAsKept family := by
  induction value with
  | absent =>
    intro name kind image?
    simp [encodeField, kept?, eq_comm]
  | scalar value =>
    intro name kind image?
    rw [encodeField, kept?]
    cases hnumber : value.encode.invalidNumber? <;> simp [AttributeValue.Storable, hnumber, eq_comm]
  | entity fields ih =>
    intro name kind image?
    cases kind with
    | entity of =>
      have hentity : encodeField family name (.entity of) (.entity fields) = .ok image? ↔
          ∃ entries, encodeFields family of (fun _ => true) fields = .ok entries ∧
            some (.map entries) = image? := by
        rw [encodeField]
        cases encodeFields family of (fun _ => true) fields <;> simp
      simp only [hentity, encodeFields_eq_ok_iff_of ih, and_assoc, exists_eq_left, kept?,
        Option.mem_some_iff, forall_eq', AttributeValue.storable_map_iff]
      exact ⟨fun ⟨hentries, heq⟩ => ⟨heq.symm, hentries⟩,
        fun ⟨heq, hentries⟩ => ⟨hentries, heq.symm⟩⟩
    | _ => simp [encodeField, kept?, eq_comm]
  | entities elements ih =>
    intro name kind image?
    cases kind with
    | entityList of =>
      simp only [encodeField, Except.map_eq_ok_iff, encodeElements_eq_ok_iff_of ih, and_assoc,
        exists_eq_left, kept?, Option.mem_some_iff, forall_eq', AttributeValue.storable_list_iff]
      exact ⟨fun ⟨hitems, heq⟩ => ⟨heq.symm, hitems⟩, fun ⟨heq, hitems⟩ => ⟨hitems, heq.symm⟩⟩
    | _ => simp [encodeField, kept?, eq_comm]

/-- **Writing a record succeeds exactly when what it keeps can be stored**, and writes that. -/
theorem encodeFields_eq_ok_iff {of : Fin n} {record : Record} {entries : Entries AttributeValue} :
    encodeFields family of (fun _ => true) record = .ok entries ↔
      entries = keptEntries family of record ∧
        ∀ entry ∈ keptEntries family of record, entry.2.Storable :=
  encodeFields_eq_ok_iff_of fun entry _ => entry.2.writtenAsKept

/-- The entries of those fields of a record that are selected. -/
def Record.part (family : Family n) (of : Fin n) (select : Field n → Bool) (record : Record) :
    Record :=
  record.filter fun entry => ((family of).field? entry.1).any select

/-- Some fields of a record are written as a record of these fields is. -/
theorem encodeFields_part (of : Fin n) (select : Field n → Bool) (record : Record) :
    encodeFields family of select record =
      encodeFields family of (fun _ => true) (record.part family of select) := by
  rw [Record.part]
  induction record with
  | nil => rfl
  | cons entry rest ih =>
    obtain ⟨name, value⟩ := entry
    cases hfield : (family of).field? name with
    | none => simp [encodeFields, hfield, ih]
    | some field => cases hselect : select field <;> simp [encodeFields, hfield, hselect, ih]

/-! ## The form of what is written -/

theorem ScalarType.type_encode {type : ScalarType} {value : ScalarValue} (h : type.Holds value) :
    value.encode.type = type.attributeType := by
  cases type <;> cases value <;> first | rfl | exact h.elim

/-- A scalar holds no map, so no names of one could clash. -/
theorem ScalarValue.wellFormed_encode (value : ScalarValue) : value.encode.WellFormed := by
  cases value with
  | strings items =>
    rw [encode, AttributeValue.WellFormed, AttributeValue.wellFormedItems_iff]
    rintro item hitem
    obtain ⟨text, -, rfl⟩ := List.mem_map.mp hitem
    trivial
  | _ => trivial

namespace FieldValue.Fits

variable {kind : FieldKind n} {value : FieldValue} {kept : AttributeValue}

/-- **What is kept of a field has the declared type.** -/
theorem type_kept (h : value.Fits family kind) (hkept : value.kept? family kind = some kept) :
    kept.type = kind.attributeType := by
  cases value with
  | absent => simp [kept?] at hkept
  | scalar value =>
    cases kind with
    | scalar type optional =>
      obtain rfl : value.encode = kept := Option.some.inj hkept
      exact ScalarType.type_encode h
    | _ => exact h.elim
  | entity fields =>
    cases kind <;> simp [kept?] at hkept
    subst hkept
    rfl
  | entities elements =>
    cases kind <;> simp [kept?] at hkept
    subst hkept
    rfl

/-- Nothing is written as null. -/
theorem isNull_kept (h : value.Fits family kind) (hkept : value.kept? family kind = some kept) :
    kept.isNull = false := by
  have htype := h.type_kept hkept
  cases kept with
  | null flag =>
    cases kind with
    | scalar type optional => cases type <;> cases htype
    | _ => cases htype
  | _ => rfl

/-- Only an absent value is not written. -/
theorem eq_absent (h : value.Fits family kind) (hkept : value.kept? family kind = none) :
    value = .absent := by
  cases value with
  | absent => rfl
  | scalar value => simp [kept?] at hkept
  | entity fields =>
    cases kind with
    | entity of => simp [kept?] at hkept
    | _ => exact h.elim
  | entities elements =>
    cases kind with
    | entityList of => simp [kept?] at hkept
    | _ => exact h.elim

end FieldValue.Fits

namespace Record.Fits

variable {of : Fin n} {record : Record}

/-- Each entry that is kept is that of a declared field with a value of its kind. -/
theorem exists_of_mem_kept (h : record.Fits family of) {name : String} {kept : AttributeValue}
    (hkept : (name, kept) ∈ keptEntries family of record) :
    ∃ value, (name, value) ∈ record ∧ ∃ field, (family of).field? name = some field ∧
      value.Fits family field.kind ∧ value.kept? family field.kind = some kept := by
  obtain ⟨value, hvalue, field, hfield, hkept⟩ := mem_keptEntries_iff.mp hkept
  obtain ⟨field', hfield', hfits⟩ := h.exists_field hvalue
  obtain rfl : field' = field := Option.some.inj (hfield'.symm.trans hfield)
  exact ⟨value, hvalue, field', hfield, hfits, hkept⟩

theorem nodup_keys_kept (h : record.Fits family of) :
    (Entries.keys (keptEntries family of record)).Nodup :=
  h.nodup_keys.sublist (keys_keptEntries_sublist of record)

theorem wellFormed_kept_of (h : record.Fits family of)
    (hentries : ∀ entry ∈ record, ∀ {kind : FieldKind n} {kept : AttributeValue},
      entry.2.Fits family kind → entry.2.kept? family kind = some kept → kept.WellFormed) :
    (AttributeValue.map (keptEntries family of record)).WellFormed := by
  rw [AttributeValue.WellFormed, AttributeValue.wellFormedEntries_iff]
  refine ⟨h.nodup_keys_kept, ?_⟩
  rintro ⟨name, kept⟩ hkept
  obtain ⟨value, hvalue, field, -, hfits, hkept⟩ := h.exists_of_mem_kept hkept
  exact hentries _ hvalue hfits hkept

end Record.Fits

/-- The maps that keep nested records have the names of their fields, which are distinct. -/
theorem FieldValue.Fits.wellFormed_kept {kind : FieldKind n} {value : FieldValue}
    {kept : AttributeValue} (h : value.Fits family kind)
    (hkept : value.kept? family kind = some kept) : kept.WellFormed := by
  induction value generalizing kind kept with
  | absent => simp [kept?] at hkept
  | scalar value =>
    obtain rfl : value.encode = kept := by simpa [kept?] using hkept
    exact value.wellFormed_encode
  | entity fields ih =>
    cases kind with
    | entity of =>
      obtain rfl := Option.some.inj hkept
      exact Record.Fits.wellFormed_kept_of h fun entry hentry {_ _} => ih entry hentry
    | _ => exact h.elim
  | entities elements ih =>
    cases kind with
    | entityList of =>
      obtain rfl := Option.some.inj hkept
      rw [AttributeValue.WellFormed, AttributeValue.wellFormedItems_iff, keptElements_eq]
      rintro item hitem
      obtain ⟨record, hrecord, rfl⟩ := List.mem_map.mp hitem
      exact Record.Fits.wellFormed_kept_of (elementsFit_iff.mp h record hrecord)
        fun entry hentry {_ _} => ih record hrecord entry hentry
    | _ => exact h.elim

/-- Entries with distinct names are exported as they are. -/
theorem Family.exportItem_eq_ok_iff_of_nodup {of : Fin n} {record : Record} {item : Item}
    (hnodup : (Entries.keys (keptEntries family of record)).Nodup) :
    family.exportItem of record = .ok item ↔
      item.entries = keptEntries family of record ∧
        ∀ entry ∈ keptEntries family of record, entry.2.Storable := by
  have hitem : Dict.ofList (keptEntries family of record) = item ↔
      item.entries = keptEntries family of record := by
    rw [Dict.ext_iff, Dict.entries_ofList hnodup, eq_comm]
  simp only [exportItem, Except.map_eq_ok_iff, encodeFields_eq_ok_iff, and_assoc, exists_eq_left,
    hitem]
  exact and_comm

namespace Record.Fits

variable {of : Fin n} {record : Record} {item : Item}

/-- **What a record keeps is well formed.** -/
theorem wellFormed_kept (h : record.Fits family of) :
    (AttributeValue.map (keptEntries family of record)).WellFormed :=
  h.wellFormed_kept_of fun _ _ {_ _} => FieldValue.Fits.wellFormed_kept

/-- **The item of a record is what its fields keep**, if all of it can be stored. -/
theorem exportItem_eq_ok_iff (h : record.Fits family of) :
    family.exportItem of record = .ok item ↔
      item.entries = keptEntries family of record ∧
        ∀ entry ∈ keptEntries family of record, entry.2.Storable :=
  Family.exportItem_eq_ok_iff_of_nodup h.nodup_keys_kept

end Record.Fits

end DocExpr
