import DocExpr.Proofs.NumberRange
import DocExpr.Proofs.SaveAndPut

/-!
# What is read and what can be written back

Reading an item checks the numbers of each field by the type of the field, and writing checks them
by what a store can take.  The two rules agree for integers, for which what is read is in the range
of its type and a store takes the whole range.  They do not agree for floats: a numeral that stands
for no finite number of the format is read all the same, as infinite or as no number, and what was
read of it cannot be written.  That is so of the words for such numbers and of decimals beyond the
largest number, and nothing else is ever read that cannot be written.

The names of a store's maps are distinct, so what is read of an entry is what the record has in the
end.

## Main definitions

* `Family.Reads`, `Family.Skips`: what reading does with an entry
* `AttributeValue.FiniteFor`, `FiniteAmong`: what a value keeps for float fields is finite
* `FieldValue.KeepsStorable`: what is kept of a field can be stored

## Main results

* `ScalarType.decode_holds`: what is read of a scalar is of its type
* `decodeField_induction`: induction over what is read of a value
* `get?_of_decodeEntries`: what a record has after entries are read
* `fits_of_decodeField`, `fits_of_decodeEntries`: what is read fits its declaration
* `keepsStorable_iff_of_decodeField`: when what was read of a field can be stored
* `Table.written_back_iff`: when what was read can be written back
-/

namespace DocExpr

variable {n : Nat} {family : Family n} {of : Fin n}

/-! ## Scalars -/

namespace Ordered

variable {α : Type} [LT α] [DecidableLT α] [DecidableEq α]
  [Std.Trichotomous fun a b : α => a < b]
  [Trans (fun a b : α => a < b) (fun a b : α => a < b) fun a b : α => a < b]

theorem pairwise_insert (x : α) {l : List α} (h : l.Pairwise (· < ·)) :
    (insert x l).Pairwise (· < ·) := by
  induction l with
  | nil => exact List.pairwise_singleton _ x
  | cons y rest ih =>
    obtain ⟨hy, hrest⟩ := List.pairwise_cons.mp h
    rw [insert]
    split
    · exact h
    next hne =>
    split
    · next hlt =>
      refine List.pairwise_cons.mpr ⟨List.forall_mem_cons.mpr ⟨hlt, fun z hz => ?_⟩, h⟩
      exact Trans.trans (r := fun a b : α => a < b) (s := fun a b : α => a < b) hlt (hy z hz)
    · next hnlt =>
      -- A member that is neither equal nor less is greater.
      have hlt : y < x := by
        by_contra hngt
        exact hne (Std.Trichotomous.trichotomous (r := fun a b : α => a < b) x y hnlt hngt)
      refine List.pairwise_cons.mpr ⟨fun z hz => ?_, ih hrest⟩
      rcases (mem_insert x z rest).mp hz with rfl | hz
      · exact hlt
      · exact hy z hz

/-- The members of a set are in ascending order. -/
theorem pairwise_ofList (l : List α) : (ofList l).Pairwise (· < ·) := by
  induction l with
  | nil => exact List.Pairwise.nil
  | cons x rest ih => exact pairwise_insert x ih

end Ordered

namespace ScalarType

theorem contains_of_decodeInteger {type : IntegerType} {numeral : String} {value : Int}
    (h : decodeInteger type numeral = .ok value) : type.contains value = true := by
  rw [decodeInteger] at h
  split at h
  · next hread =>
    cases h
    rw [IntegerType.read?, Option.filter_eq_some_iff] at hread
    exact hread.2
  · cases h

theorem read?_of_decodeFloat {format : FloatFormat} {numeral : String} {x : Binary}
    (h : decodeFloat format numeral = .ok x) : format.read? numeral = some x := by
  rw [decodeFloat] at h
  split at h
  · next hread =>
    cases h
    exact hread
  · cases h

/-- **What is read of a scalar is of its type**: in range, ascending, and a number of its format. -/
theorem decode_holds {type : ScalarType} {image : AttributeValue} {value : ScalarValue}
    (h : type.decode image = .ok value) : type.Holds value := by
  cases type <;> cases image <;> try (cases h; done)
  case integer.number type numeral =>
    obtain ⟨decoded, hdecode, rfl⟩ := Except.map_eq_ok_iff.mp h
    exact contains_of_decodeInteger hdecode
  case float.number format numeral =>
    obtain ⟨decoded, hdecode, rfl⟩ := Except.map_eq_ok_iff.mp h
    exact ⟨rfl, FloatFormat.read?_holds (read?_of_decodeFloat hdecode)⟩
  case strings.list items =>
    obtain ⟨decoded, -, rfl⟩ := Except.map_eq_ok_iff.mp h
    trivial
  case stringSet.stringSet members =>
    cases h
    exact Ordered.pairwise_ofList members
  case integerSet.numberSet members =>
    obtain ⟨decoded, hdecode, heq⟩ := Except.bind_eq_ok_iff.mp h
    cases heq
    refine ⟨Ordered.pairwise_ofList decoded, fun member hmember => ?_⟩
    have hdecoded := Except.forall₂_of_mapM_eq_ok hdecode
    obtain ⟨numeral, -, hnumeral⟩ := exists_mem_of_forall₂ hdecoded member
      ((Ordered.mem_ofList ..).mp hmember)
    exact contains_of_decodeInteger hnumeral
  all_goals
    cases h
    trivial

end ScalarType

/-! ## Entries -/

namespace Family

/-- Reading takes up an entry as a value of a declared field. -/
def Reads (family : Family n) (of : Fin n) (name : String) (image : AttributeValue)
    (value : FieldValue) : Prop :=
  ∃ field, (family of).field? name = some field ∧ image.isNull = false ∧
    decodeField family name field.kind image = .ok value

/-- Reading passes over an entry, whose name is not declared or whose value is null. -/
def Skips (family : Family n) (of : Fin n) (name : String) (image : AttributeValue) : Prop :=
  ∀ field, (family of).field? name = some field → image.isNull = true

end Family

/-- An entry is passed over or taken up, and then the rest is read. -/
theorem decodeEntries_cons_eq_ok_iff {name : String} {image : AttributeValue}
    {rest : Entries AttributeValue} {start target : Record} :
    decodeEntries family of ((name, image) :: rest) start = .ok target ↔
      (family.Skips of name image ∧ decodeEntries family of rest start = .ok target) ∨
        ∃ value, family.Reads of name image value ∧
          decodeEntries family of rest (Entries.set start name value) = .ok target := by
  rw [decodeEntries]
  simp only [Family.Skips, Family.Reads]
  cases (family of).field? name with
  | none => simp
  | some field => cases image.isNull <;> simp [Except.bind_eq_ok_iff]

/-- **What a record has after entries are read**: of each name what some entry was read as, or, if
all entries of the name were passed over, what it had before. -/
theorem get?_of_decodeEntries {entries : Entries AttributeValue} {start target : Record}
    (h : decodeEntries family of entries start = .ok target) (name : String) :
    (∃ image value, (name, image) ∈ entries ∧ family.Reads of name image value ∧
        target.get? name = some value) ∨
      (∀ image, (name, image) ∈ entries → family.Skips of name image) ∧
        target.get? name = start.get? name := by
  -- A later entry counts before an earlier one, so the induction goes on from what was set.
  induction entries generalizing start with
  | nil =>
    rw [decodeEntries] at h
    cases h
    exact .inr ⟨nofun, rfl⟩
  | cons entry rest ih =>
    obtain ⟨other, otherImage⟩ := entry
    rcases decodeEntries_cons_eq_ok_iff.mp h with ⟨hskip, h⟩ | ⟨value, hread, h⟩
    · rcases ih h with ⟨image, value, himage, hread, hget⟩ | ⟨hskips, hget⟩
      · exact .inl ⟨image, value, List.mem_cons_of_mem _ himage, hread, hget⟩
      · refine .inr ⟨fun image himage => ?_, hget⟩
        rcases List.mem_cons.mp himage with heq | himage
        · cases heq
          exact hskip
        · exact hskips image himage
    · rcases ih h with ⟨image, value, himage, hread, hget⟩ | ⟨hskips, hget⟩
      · exact .inl ⟨image, value, List.mem_cons_of_mem _ himage, hread, hget⟩
      · rw [Entries.get?_set] at hget
        split at hget
        · next heq =>
          subst heq
          exact .inl ⟨otherImage, value, List.mem_cons_self, hread, hget⟩
        · next hne =>
          refine .inr ⟨fun image himage => ?_, hget⟩
          rcases List.mem_cons.mp himage with heq | himage
          · cases heq
            exact absurd rfl hne
          · exact hskips image himage

/-- Reading adds no name that is not declared. -/
theorem keys_of_decodeEntries {entries : Entries AttributeValue} {start target : Record}
    (h : decodeEntries family of entries start = .ok target)
    (hkeys : start.keys = (family of).fields.map Field.name) :
    target.keys = (family of).fields.map Field.name := by
  induction entries generalizing start with
  | nil =>
    rw [decodeEntries] at h
    cases h
    exact hkeys
  | cons entry rest ih =>
    obtain ⟨name, image⟩ := entry
    rcases decodeEntries_cons_eq_ok_iff.mp h with ⟨-, h⟩ | ⟨value, ⟨field, hfield, -⟩, h⟩
    · exact ih h hkeys
    · refine ih h ?_
      obtain ⟨hmem, hname⟩ := Registry.field?_eq_some_iff.mp hfield
      rw [Entries.keys_set, if_pos, hkeys]
      rw [hkeys]
      exact List.mem_map.mpr ⟨field, hmem, hname⟩

/-- Elements are read one by one, each from a map. -/
theorem decodeElements_eq_ok_iff {name : String} {index : Nat} {items : List AttributeValue}
    {records : List Record} :
    decodeElements family name of index items = .ok records ↔
      List.Forall₂ (fun item record => ∃ entries, item = .map entries ∧
        decodeEntries family of entries (family of).default = .ok record) items records := by
  induction items generalizing index records with
  | nil => simp [decodeElements, eq_comm]
  | cons item rest ih =>
    cases item with
    | map entries =>
      rw [decodeElements]
      cases hrecord : decodeEntries family of entries (family of).default with
      | error cause => simp [List.forall₂_cons_left_iff, hrecord]
      | ok record =>
        simp only [Except.bind_eq_ok_iff, ih, List.forall₂_cons_left_iff, pure, Except.pure,
          Except.ok.injEq, AttributeValue.map.injEq, exists_eq_left', hrecord]
        constructor
        · rintro ⟨others, hothers, rfl⟩
          exact ⟨record, others, rfl, hothers, rfl⟩
        · rintro ⟨_, others, rfl, hothers, rfl⟩
          exact ⟨others, hothers, rfl⟩
    | _ => simp [decodeElements, List.forall₂_cons_left_iff]

/-! ## Fields -/

section Fields

variable {name : String} {image : AttributeValue} {value : FieldValue}

theorem decodeField_scalar_eq_ok_iff {type : ScalarType} {optional : Bool} :
    decodeField family name (.scalar type optional) image = .ok value ↔
      ∃ decoded, type.decode image = .ok decoded ∧ value = .scalar decoded := by
  rw [decodeField]
  cases type.decode image <;> simp [eq_comm]

theorem decodeField_entity_eq_ok_iff :
    decodeField family name (.entity of) image = .ok value ↔
      ∃ entries record, image = .map entries ∧
        decodeEntries family of entries (family of).default = .ok record ∧
          value = .entity record := by
  cases image with
  | map entries =>
    rw [decodeField]
    cases hrecord : decodeEntries family of entries (family of).default <;>
      simp [hrecord, eq_comm (a := value)]
  | _ => simp [decodeField]

theorem decodeField_entityList_eq_ok_iff :
    decodeField family name (.entityList of) image = .ok value ↔
      ∃ items records, image = .list items ∧
        List.Forall₂ (fun item record => ∃ entries, item = .map entries ∧
          decodeEntries family of entries (family of).default = .ok record) items records ∧
            value = .entities records := by
  cases image with
  | list items =>
    rw [decodeField]
    simp only [Except.map_eq_ok_iff, decodeElements_eq_ok_iff, AttributeValue.list.injEq,
      exists_and_left, exists_eq_left', eq_comm (a := value)]
  | _ => simp [decodeField]

end Fields

/-- Induction over what is read of a value.  The members of a map are known at once, whatever fields
they are read for, and so are the elements of a list. -/
theorem decodeField_induction {P : FieldKind n → AttributeValue → FieldValue → Prop}
    (scalar : ∀ {type optional image decoded}, type.decode image = .ok decoded →
      P (.scalar type optional) image (.scalar decoded))
    (entity : ∀ {of entries record}, (∀ entry ∈ entries, ∀ {name kind value},
        decodeField family name kind entry.2 = .ok value → P kind entry.2 value) →
      decodeEntries family of entries (family of).default = .ok record →
        P (.entity of) (.map entries) (.entity record))
    (entityList : ∀ {of items records},
      List.Forall₂ (fun item record => P (.entity of) item (.entity record)) items records →
        P (.entityList of) (.list items) (.entities records))
    {name : String} {kind : FieldKind n} {image : AttributeValue} {value : FieldValue}
    (h : decodeField family name kind image = .ok value) : P kind image value := by
  have hscalar : ∀ {name type optional image value},
      decodeField family name (.scalar type optional) image = .ok value →
        P (.scalar type optional) image value := by
    intro name type optional image value h
    obtain ⟨decoded, hdecode, rfl⟩ := decodeField_scalar_eq_ok_iff.mp h
    exact scalar hdecode
  induction image generalizing name kind value with
  | map entries ih =>
    cases kind with
    | scalar type optional => exact hscalar h
    | entity of =>
      obtain ⟨_, record, ⟨⟩, hrecord, rfl⟩ := decodeField_entity_eq_ok_iff.mp h
      exact entity ih hrecord
    | entityList of => obtain ⟨_, _, ⟨⟩, -⟩ := decodeField_entityList_eq_ok_iff.mp h
  | list items ih =>
    cases kind with
    | scalar type optional => exact hscalar h
    | entity of => obtain ⟨_, _, ⟨⟩, -⟩ := decodeField_entity_eq_ok_iff.mp h
    | entityList of =>
      obtain ⟨_, records, ⟨⟩, hrecords, rfl⟩ := decodeField_entityList_eq_ok_iff.mp h
      refine entityList ?_
      clear h
      induction hrecords with
      | nil => exact .nil
      | cons hrecord _ ihrest =>
        obtain ⟨hitem, hitems⟩ := List.forall_mem_cons.mp ih
        obtain ⟨entries, rfl, hdecode⟩ := hrecord
        refine .cons (@hitem name _ _ ?_) (ihrest hitems)
        exact decodeField_entity_eq_ok_iff.mpr ⟨_, _, rfl, hdecode, rfl⟩
  | _ =>
    cases kind with
    | scalar type optional => exact hscalar h
    | entity of => obtain ⟨_, _, ⟨⟩, -⟩ := decodeField_entity_eq_ok_iff.mp h
    | entityList of => obtain ⟨_, _, ⟨⟩, -⟩ := decodeField_entityList_eq_ok_iff.mp h

/-! ## What is read fits -/

/-- A record with the declared names, whose values are of the kinds of their fields, fits. -/
theorem Record.fits_of {record : Record}
    (hkeys : record.keys = (family of).fields.map Field.name)
    (hvalues : ∀ name value, (name, value) ∈ record →
      ∃ field, (family of).field? name = some field ∧ value.Fits family field.kind) :
    record.Fits family of := by
  rw [Record.Fits, entriesFit_iff, List.forall₂_iff_get]
  have hlength : (family of).fields.length = record.length := by
    have := congrArg List.length hkeys
    simpa [Entries.keys] using this.symm
  refine ⟨hlength, fun i hi hi' => ?_⟩
  have hname : (record.get ⟨i, hi'⟩).1 = ((family of).fields.get ⟨i, hi⟩).name := by
    have := congrArg (·[i]?) hkeys
    simpa [Entries.keys, hi, hi'] using this
  refine ⟨hname, ?_⟩
  obtain ⟨field, hfield, hfits⟩ := hvalues _ _ (List.get_mem record ⟨i, hi'⟩)
  have hdeclared := Registry.field?_eq_some_iff.mpr ⟨List.get_mem (family of).fields ⟨i, hi⟩, rfl⟩
  rw [hname, hdeclared] at hfield
  exact Option.some.inj hfield ▸ hfits

/-- A record whose entries are read as values that fit. -/
theorem decodeEntries_fits_of {entries : Entries AttributeValue} {record : Record}
    (hentries : ∀ entry ∈ entries, ∀ {name kind value},
      decodeField family name kind entry.2 = .ok value → value.Fits family kind)
    (h : decodeEntries family of entries (family of).default = .ok record) :
    record.Fits family of := by
  have hdefault := Registry.default_fits family of
  have hkeys := keys_of_decodeEntries h hdefault.keys_eq
  have hnodup : record.keys.Nodup := hkeys ▸ (family of).wellFormed.names_nodup
  refine Record.fits_of hkeys fun name value hvalue => ?_
  have hget := Entries.get?_of_mem hnodup hvalue
  -- A value was read from an entry, or it is the default of its field.
  rcases get?_of_decodeEntries h name with ⟨image, read, himage, hread, hread'⟩ | ⟨-, hstart⟩
  · obtain ⟨field, hfield, -, hdecode⟩ := hread
    obtain rfl : read = value := Option.some.inj (hread'.symm.trans hget)
    exact ⟨field, hfield, hentries _ himage hdecode⟩
  · exact hdefault.exists_field (Entries.mem_of_get? (hstart ▸ hget))

/-- **What is read of a field fits its declaration**, at any depth. -/
theorem fits_of_decodeField {name : String} {kind : FieldKind n} {image : AttributeValue}
    {value : FieldValue} (h : decodeField family name kind image = .ok value) :
    value.Fits family kind := by
  refine decodeField_induction (P := fun kind _ value => value.Fits family kind) (fun hdecode => ?_)
    (fun ih hrecord => ?_) (fun ih => ?_) h
  · exact ScalarType.decode_holds hdecode
  · exact decodeEntries_fits_of ih hrecord
  · refine elementsFit_iff.mpr fun record hrecord => ?_
    obtain ⟨item, -, hfits⟩ := exists_mem_of_forall₂ ih record hrecord
    exact hfits

/-- **What is read of an item fits its entity.** -/
theorem fits_of_decodeEntries {entries : Entries AttributeValue} {record : Record}
    (h : decodeEntries family of entries (family of).default = .ok record) :
    record.Fits family of :=
  decodeEntries_fits_of (fun _ _ {_ _ _} => fits_of_decodeField) h

/-! ## When it can be written back -/

/-- A float is finite; other scalars have no number that is not. -/
def ScalarValue.Finite : ScalarValue → Prop
  | .float _ x => x.isFinite = true
  | _ => True

/-- **A scalar can be written exactly when it is finite.** -/
theorem ScalarType.storable_encode_iff {type : ScalarType} {value : ScalarValue}
    (h : type.Holds value) : value.encode.Storable ↔ value.Finite := by
  cases type <;> cases value <;> try exact h.elim
  case integer.integer type value =>
    rw [ScalarValue.encode, AttributeValue.Storable, AttributeValue.invalidNumber?,
      if_pos (isFiniteNumeral_toString h)]
    exact ⟨fun _ => trivial, fun _ => rfl⟩
  case float.float format format' x =>
    obtain ⟨rfl, hx⟩ := h
    rw [ScalarValue.encode, AttributeValue.Storable, AttributeValue.invalidNumber?,
      FloatFormat.isFiniteNumeral_text hx, ScalarValue.Finite]
    cases x.isFinite <;> simp
  case strings.strings items =>
    rw [ScalarValue.encode, AttributeValue.storable_list_iff, List.forall_mem_map]
    exact ⟨fun _ => trivial, fun _ _ _ => rfl⟩
  case integerSet.integerSet members =>
    have hmembers : ∀ member ∈ members, isFiniteNumeral (toString member) = true :=
      fun member hmember => isFiniteNumeral_toString (h.2 member hmember)
    rw [ScalarValue.encode, AttributeValue.Storable, AttributeValue.invalidNumber?,
      List.find?_eq_none, List.forall_mem_map]
    exact ⟨fun _ => trivial, fun _ member hmember => by rw [hmembers member hmember]; simp⟩
  all_goals exact ⟨fun _ => trivial, fun _ => rfl⟩

mutual

/-- What a value keeps for float fields is finite: each numeral stands for a finite number of the
format of its field, at whatever depth. -/
def AttributeValue.FiniteFor (family : Family n) : FieldKind n → AttributeValue → Prop
  | .scalar (.float format) _, .number numeral =>
    ∃ x, format.read? numeral = some x ∧ x.isFinite = true
  | .entity of, .map entries => FiniteAmong family of entries
  | .entityList of, .list items => FiniteIn family of items
  | _, _ => True

/-- What the entries of a map keep, those that are read. -/
def FiniteAmong (family : Family n) (of : Fin n) : List (String × AttributeValue) → Prop
  | [] => True
  | (name, value) :: rest =>
    (∀ field, (family of).field? name = some field → value.isNull = false →
      value.FiniteFor family field.kind) ∧ FiniteAmong family of rest

/-- What the elements of a list keep. -/
def FiniteIn (family : Family n) (of : Fin n) : List AttributeValue → Prop
  | [] => True
  | item :: rest => item.FiniteFor family (.entity of) ∧ FiniteIn family of rest

end

theorem finiteAmong_iff {entries : Entries AttributeValue} :
    FiniteAmong family of entries ↔ ∀ name value, (name, value) ∈ entries →
      ∀ field, (family of).field? name = some field → value.isNull = false →
        value.FiniteFor family field.kind := by
  induction entries with
  | nil => simp [FiniteAmong]
  | cons entry rest ih =>
    obtain ⟨name, value⟩ := entry
    rw [FiniteAmong, ih]
    constructor
    · rintro ⟨hfirst, hrest⟩ other otherValue hmem
      rcases List.mem_cons.mp hmem with heq | hmem
      · cases heq
        exact hfirst
      · exact hrest other otherValue hmem
    · intro h
      exact ⟨h name value List.mem_cons_self,
        fun other otherValue hmem => h other otherValue (List.mem_cons_of_mem _ hmem)⟩

theorem finiteIn_iff {items : List AttributeValue} :
    FiniteIn family of items ↔ ∀ item ∈ items, item.FiniteFor family (.entity of) := by
  induction items with
  | nil => simp [FiniteIn]
  | cons item rest ih => rw [FiniteIn, ih, List.forall_mem_cons]

/-- What is kept of a field can be stored. -/
def FieldValue.KeepsStorable (family : Family n) (kind : FieldKind n) (value : FieldValue) : Prop :=
  ∀ kept ∈ value.kept? family kind, kept.Storable

/-- What a field holds that was never given a value can be written. -/
theorem FieldKind.default_keepsStorable (kind : FieldKind n) :
    kind.default.KeepsStorable family kind := by
  cases kind with
  | scalar type optional =>
    cases optional with
    | true => exact nofun
    | false =>
      rintro _ ⟨⟩
      refine (ScalarType.storable_encode_iff type.default_holds).mpr ?_
      cases type <;> trivial
  | entity of => exact nofun
  | entityList of =>
    rintro _ ⟨⟩
    exact AttributeValue.storable_list_iff.mpr nofun

/-- A record can be written exactly when its entries, of distinct names, keep finite floats. -/
theorem storable_of_decodeEntries_iff {entries : Entries AttributeValue} {record : Record}
    (hentries : ∀ entry ∈ entries, ∀ {name kind value},
      decodeField family name kind entry.2 = .ok value →
        (value.KeepsStorable family kind ↔ entry.2.FiniteFor family kind))
    (nodup : entries.keys.Nodup)
    (h : decodeEntries family of entries (family of).default = .ok record) :
    (∀ entry ∈ keptEntries family of record, entry.2.Storable) ↔
      FiniteAmong family of entries := by
  rw [finiteAmong_iff]
  constructor
  · intro hstorable name image himage field hfield hnull
    -- Names are distinct, so what was read of this entry is what the record has.
    rcases get?_of_decodeEntries h name with ⟨other, value, hother, hread, hget⟩ | ⟨hskips, -⟩
    · obtain rfl : other = image := Option.some.inj
        ((Entries.get?_of_mem nodup hother).symm.trans (Entries.get?_of_mem nodup himage))
      obtain ⟨field', hfield', -, hdecode⟩ := hread
      obtain rfl : field' = field := Option.some.inj (hfield'.symm.trans hfield)
      refine (hentries _ himage hdecode).mp fun kept hkept => ?_
      exact hstorable (name, kept) (mem_keptEntries_iff.mpr
        ⟨value, Entries.mem_of_get? hget, field', hfield, hkept⟩)
    · rw [hskips image himage field hfield] at hnull
      cases hnull
  · rintro hfinite ⟨name, kept⟩ hentry
    obtain ⟨value, hvalue, field, hfield, hkept⟩ := mem_keptEntries_iff.mp hentry
    have hget := Entries.get?_of_mem (fits_of_decodeEntries h).nodup_keys hvalue
    rcases get?_of_decodeEntries h name with ⟨image, read, himage, hread, hread'⟩ | ⟨-, hstart⟩
    · obtain rfl : read = value := Option.some.inj (hread'.symm.trans hget)
      obtain ⟨field', hfield', hnull, hdecode⟩ := hread
      obtain rfl : field' = field := Option.some.inj (hfield'.symm.trans hfield)
      exact (hentries _ himage hdecode).mpr (hfinite name image himage field' hfield hnull)
        kept hkept
    · -- What was not read is the default of its field.
      obtain ⟨field', hfield', heq⟩ := List.mem_map.mp (Entries.mem_of_get? (hstart ▸ hget))
      cases heq
      obtain rfl : field' = field := Option.some.inj
        ((Registry.field?_eq_some_iff.mpr ⟨hfield', rfl⟩).symm.trans hfield)
      exact field'.kind.default_keepsStorable kept hkept

/-- What is read of a scalar is finite unless it is a float and its numeral is not. -/
theorem ScalarType.finite_iff_of_decode {type : ScalarType} {optional : Bool}
    {image : AttributeValue} {value : ScalarValue} (h : type.decode image = .ok value) :
    value.Finite ↔ image.FiniteFor family (.scalar type optional) := by
  have hholds := decode_holds h
  cases type with
  | float format =>
    cases image with
    | number numeral =>
      obtain ⟨x, hdecode, rfl⟩ := Except.map_eq_ok_iff.mp h
      rw [AttributeValue.FiniteFor, read?_of_decodeFloat hdecode]
      simp [ScalarValue.Finite]
    | _ => cases h
  | _ =>
    have hfinite : value.Finite := by
      cases value <;> first | exact hholds.elim | trivial
    exact ⟨fun _ => by cases image <;> trivial, fun _ => hfinite⟩

/-- **What is read of a field can be written exactly when it was kept as finite floats**, at any
depth. -/
theorem keepsStorable_iff_of_decodeField {name : String} {kind : FieldKind n}
    {image : AttributeValue} {value : FieldValue} (hwf : image.WellFormed)
    (h : decodeField family name kind image = .ok value) :
    value.KeepsStorable family kind ↔ image.FiniteFor family kind := by
  refine decodeField_induction (P := fun kind image value => image.WellFormed →
    (value.KeepsStorable family kind ↔ image.FiniteFor family kind))
    (fun hdecode _ => ?_) (fun ih hrecord hwf => ?_) (fun ih hwf => ?_) h hwf
  · rw [← ScalarType.finite_iff_of_decode hdecode,
      ← ScalarType.storable_encode_iff (ScalarType.decode_holds hdecode)]
    simp [FieldValue.KeepsStorable, FieldValue.kept?]
  · rw [AttributeValue.WellFormed, AttributeValue.wellFormedEntries_iff] at hwf
    have hentries := storable_of_decodeEntries_iff
      (fun entry hentry {_ _ _} hdecode => ih entry hentry hdecode (hwf.2 entry hentry))
      hwf.1 hrecord
    rw [AttributeValue.FiniteFor, ← hentries, ← AttributeValue.storable_map_iff]
    simp [FieldValue.KeepsStorable, FieldValue.kept?]
  · rw [AttributeValue.WellFormed, AttributeValue.wellFormedItems_iff] at hwf
    rename_i of items records
    have hkeeps : FieldValue.KeepsStorable family (.entityList of) (.entities records) ↔
        ∀ record ∈ records, FieldValue.KeepsStorable family (.entity of) (.entity record) := by
      simp [FieldValue.KeepsStorable, FieldValue.kept?, AttributeValue.storable_list_iff,
        keptElements_eq]
    rw [hkeeps, AttributeValue.FiniteFor, finiteIn_iff]
    clear hkeeps
    induction ih with
    | nil => simp
    | cons hitem _ ihrest =>
      obtain ⟨hfirst, hrest⟩ := List.forall_mem_cons.mp hwf
      rw [List.forall_mem_cons, List.forall_mem_cons]
      exact and_congr (hitem hfirst) (ihrest hrest)

/-- **When what was read can be written back.**  What is read of an item fits its entity.  It can be
exported, put and saved exactly when every numeral that was read for a float field, in the item or
in a map inside it, stands for a finite number of the format of that field. -/
theorem Table.written_back_iff (table : Table n) (item : Item)
    (hwf : (AttributeValue.ofItem item).WellFormed) (record : Record)
    (hread : table.family.transform table.of item = .ok record) :
    record.Fits table.family table.of ∧
      ((∃ item', table.family.exportItem table.of record = .ok item') ↔
        FiniteAmong table.family table.of item.entries) ∧
      ((∃ stored, table.put record = .ok stored) ↔
        FiniteAmong table.family table.of item.entries) ∧
      ∀ alphabet, Alphabet.ofSymbols table.config.alphabet.toList = .ok alphabet →
        ((∃ saved, table.save record = .ok saved) ↔
          FiniteAmong table.family table.of item.entries) := by
  have hfits := fits_of_decodeEntries hread
  rw [AttributeValue.ofItem, AttributeValue.WellFormed, AttributeValue.wellFormedEntries_iff] at hwf
  have hfinite := storable_of_decodeEntries_iff
    (fun entry hentry {_ _ _} => keepsStorable_iff_of_decodeField (hwf.2 entry hentry))
    hwf.1 hread
  refine ⟨hfits, ?_, ?_, ?_⟩
  · rw [← hfinite]
    constructor
    · rintro ⟨item', hexport⟩
      exact (hfits.exportItem_eq_ok_iff.mp hexport).2
    · intro hstorable
      exact ⟨⟨_, hfits.nodup_keys_kept⟩, hfits.exportItem_eq_ok_iff.mpr ⟨rfl, hstorable⟩⟩
  · exact (exists_put_iff hfits).trans hfinite
  · intro alphabet halphabet
    exact (exists_save_iff halphabet hfits).trans hfinite

/-- The weight of a book is a float in single precision.  Of two decimals that are read, the lighter
one can be written back; the heavier one is beyond the format and was read as infinite. -/
theorem Table.written_back_iff_weight :
    let table : Table 3 :=
      { name := "shelves", family := shelves, of := 0, config := ⟨"ABC", true⟩ }
    let item (weight : String) : Item :=
      ⟨[("books", .list [.map [("weight", .number weight)]])], List.nodup_singleton _⟩
    (∃ record, shelves.transform 0 (item "1e38") = .ok record ∧
      FiniteAmong shelves 0 (item "1e38").entries ∧ ∃ stored, table.put record = .ok stored) ∧
    ∃ record, shelves.transform 0 (item "1e39") = .ok record ∧
      ¬FiniteAmong shelves 0 (item "1e39").entries ∧ ¬∃ stored, table.put record = .ok stored := by
  intro table item
  have hwf : ∀ weight, (AttributeValue.ofItem (item weight)).WellFormed := by
    intro weight
    simp [item, AttributeValue.ofItem, AttributeValue.WellFormed, AttributeValue.WellFormedEntries,
      AttributeValue.WellFormedItems, Entries.keys]
  have hlighter : (shelves.transform 0 (item "1e38")).toOption.map
      (fun record => (shelves.exportItem 0 record).toOption.map Dict.keys) =
        some (some ["label", "books"]) := by
    decide +kernel
  have hheavier : (shelves.transform 0 (item "1e39")).toOption.map
      (fun record => (shelves.exportItem 0 record).toOption.map Dict.keys) = some none := by
    decide +kernel
  obtain ⟨lighter, hread, hexport⟩ := Except.exists_of_toOption hlighter
  obtain ⟨heavier, hread', hexport'⟩ := Except.exists_of_toOption hheavier
  obtain ⟨-, hiff, hput, -⟩ := written_back_iff table (item "1e38") (hwf _) lighter hread
  obtain ⟨-, hiff', hput', -⟩ := written_back_iff table (item "1e39") (hwf _) heavier hread'
  have hfinite : FiniteAmong shelves 0 (item "1e38").entries := by
    obtain ⟨item', hitem', -⟩ := Except.exists_of_toOption hexport
    exact hiff.mp ⟨item', hitem'⟩
  have hinfinite : ¬FiniteAmong shelves 0 (item "1e39").entries := by
    intro hfinite
    obtain ⟨item', hitem'⟩ := hiff'.mpr hfinite
    rw [show shelves.exportItem 0 heavier = .ok item' from hitem'] at hexport'
    cases hexport'
  exact ⟨⟨lighter, hread, hfinite, hput.mpr hfinite⟩, heavier, hread', hinfinite,
    mt hput'.mp hinfinite⟩

end DocExpr
