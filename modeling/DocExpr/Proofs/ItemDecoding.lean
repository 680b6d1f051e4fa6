import DocExpr.Proofs.RoundTrip
import DocExpr.Proofs.WriteBack

/-!
# Items and the records they keep

What a map says about a record is a matter of its entries alone, whatever their order: each declared
field to which some entry gives a value has what this value decodes to, and every other field its
default.  `Decodes` says it by rules, one for each kind of field, and reading a map computes what
the rules say.

An entry with another name or a null says nothing, at any depth, so it makes no difference whether
it is there.  An element of a list has to be a map; a null among the elements is no absence.

When a map says nothing that can be read, the error is that of one of its entries.  Which one it is
depends on the order; `Fails` says what errors there are.

## Main definitions

* `Family.Gives`: a map gives a value to a declared field
* `Decodes`: what a value says about a field, by the kind of the field
* `Agree`: values that say the same
* `Fails`: the errors of a value that says nothing

## Main results

* `decodeField_eq_ok_iff`: reading a value computes what it says
* `Decodes.agree`: values that agree say the same
* `fails_of_decodeField`: the error of a value is that of a field inside it
* `Family.transform_exact`: the record of an item, and the errors
-/

namespace DocExpr

variable {n : Nat} {family : Family n} {of : Fin n}

/-! ## What a map says -/

/-- A map gives a value to a field: the field is declared, and the map has an entry of its name with
a value that is not null. -/
def Family.Gives (family : Family n) (of : Fin n) (entries : Entries AttributeValue)
    (field : Field n) (image : AttributeValue) : Prop :=
  field ∈ (family of).fields ∧ (field.name, image) ∈ entries ∧ image.isNull = false

/-- What a value says about a field.  A scalar is read by its type.  An entity is read from a map:
its fields have what the map gives to them, and the others their defaults.  A list of entities is
read element by element. -/
inductive Decodes (family : Family n) : FieldKind n → AttributeValue → FieldValue → Prop
  | scalar {type : ScalarType} {optional : Bool} {image : AttributeValue} {value : ScalarValue} :
    type.decode image = .ok value → Decodes family (.scalar type optional) image (.scalar value)
  | entity {of : Fin n} {entries : Entries AttributeValue} (value : Field n → FieldValue) :
    (∀ field image, family.Gives of entries field image →
      Decodes family field.kind image (value field)) →
    (∀ field ∈ (family of).fields, (∀ image, ¬family.Gives of entries field image) →
      value field = field.kind.default) →
    Decodes family (.entity of) (.map entries)
      (.entity ((family of).fields.map fun field => (field.name, value field)))
  | entityList {of : Fin n} {items : List AttributeValue} {records : List Record} :
    items.length = records.length →
    (∀ (i : Nat) (item : AttributeValue) (record : Record), items[i]? = some item →
      records[i]? = some record → Decodes family (.entity of) item (.entity record)) →
    Decodes family (.entityList of) (.list items) (.entities records)

/-! ## Records by their fields -/

/-- A record with a value for each declared field. -/
theorem get?_map_fields (value : Field n → FieldValue) {field : Field n}
    (hfield : field ∈ (family of).fields) :
    Entries.get? ((family of).fields.map fun field => (field.name, value field)) field.name =
      some (value field) := by
  apply Entries.get?_of_mem
  · rw [Entries.keys, List.map_map]
    exact (family of).wellFormed.names_nodup
  · exact List.mem_map.mpr ⟨field, hfield, rfl⟩

/-- A record with the declared names is told by what it has for each field. -/
theorem Record.eq_map_fields {record : Record} {value : Field n → FieldValue}
    (hkeys : record.keys = (family of).fields.map Field.name)
    (hget : ∀ field ∈ (family of).fields, record.get? field.name = some (value field)) :
    record = (family of).fields.map fun field => (field.name, value field) := by
  have hnodup := (family of).wellFormed.names_nodup
  have hkeys' : Entries.keys ((family of).fields.map fun field => (field.name, value field)) =
      (family of).fields.map Field.name := by
    rw [Entries.keys, List.map_map]
    rfl
  have heq : (⟨record, hkeys ▸ hnodup⟩ : Dict FieldValue) = ⟨_, hkeys' ▸ hnodup⟩ := by
    refine Dict.ext_get? (hkeys.trans hkeys'.symm) fun name => ?_
    by_cases hname : name ∈ (family of).fields.map Field.name
    · obtain ⟨field, hfield, rfl⟩ := List.mem_map.mp hname
      exact (hget field hfield).trans (get?_map_fields value hfield).symm
    · have hnone : ∀ {other : Record}, other.keys = (family of).fields.map Field.name →
          other.get? name = none := fun hother =>
        (Entries.get?_eq_none_iff _ _).mpr (by rwa [hother])
      exact (hnone hkeys).trans (hnone hkeys').symm
  exact congrArg Dict.entries heq

/-! ## Reading computes what is said -/

section Reading

variable {entries : Entries AttributeValue} {record : Record}

/-- Reading goes through if each value that is given to a field can be read. -/
theorem exists_decodeEntries (start : Record)
    (h : ∀ field image, family.Gives of entries field image →
      ∃ value, decodeField family field.name field.kind image = .ok value) :
    ∃ record, decodeEntries family of entries start = .ok record := by
  induction entries generalizing start with
  | nil => exact ⟨start, rfl⟩
  | cons entry rest ih =>
    obtain ⟨name, image⟩ := entry
    have hrest : ∀ start, ∃ record, decodeEntries family of rest start = .ok record :=
      fun start => ih start fun field image hgives =>
        h field image ⟨hgives.1, List.mem_cons_of_mem _ hgives.2.1, hgives.2.2⟩
    rw [decodeEntries]
    cases hfield : (family of).field? name with
    | none => exact hrest start
    | some field =>
      cases hnull : image.isNull with
      | true => exact hrest start
      | false =>
        obtain ⟨hmem, rfl⟩ := Registry.field?_eq_some_iff.mp hfield
        obtain ⟨value, hvalue⟩ := h field image ⟨hmem, List.mem_cons_self .., hnull⟩
        obtain ⟨record, hrecord⟩ := hrest (Entries.set start field.name value)
        refine ⟨record, ?_⟩
        dsimp only
        rw [if_neg Bool.false_ne_true, hvalue]
        exact hrecord

/-- A record has what was read of the value that is given to a field. -/
theorem get?_of_gives (hnodup : entries.keys.Nodup)
    (h : decodeEntries family of entries (family of).default = .ok record) {field : Field n}
    {image : AttributeValue} (hgives : family.Gives of entries field image) :
    ∃ value, decodeField family field.name field.kind image = .ok value ∧
      record.get? field.name = some value := by
  obtain ⟨hmem, hentry, hnull⟩ := hgives
  have hfield := Registry.field?_eq_some_iff.mpr ⟨hmem, rfl⟩
  rcases get?_of_decodeEntries h field.name with ⟨other, value, hother, hreads, hget⟩ | ⟨hskips, -⟩
  · -- The entry that was read is the one there is.
    obtain rfl : other = image := Option.some.inj
      ((Entries.get?_of_mem hnodup hother).symm.trans (Entries.get?_of_mem hnodup hentry))
    obtain ⟨declared, hdeclared, -, hvalue⟩ := hreads
    rw [hfield, Option.some.injEq] at hdeclared
    exact ⟨value, hdeclared ▸ hvalue, hget⟩
  · rw [hskips image hentry field hfield] at hnull
    cases hnull

/-- A record has the default of a field to which nothing is given. -/
theorem get?_of_not_gives (h : decodeEntries family of entries (family of).default = .ok record)
    {field : Field n} (hmem : field ∈ (family of).fields)
    (hnone : ∀ image, ¬family.Gives of entries field image) :
    record.get? field.name = some field.kind.default := by
  have hfield := Registry.field?_eq_some_iff.mpr ⟨hmem, rfl⟩
  rcases get?_of_decodeEntries h field.name with ⟨image, value, hentry, hreads, -⟩ | ⟨-, hget⟩
  · obtain ⟨-, -, hnull, -⟩ := hreads
    exact absurd ⟨hmem, hentry, hnull⟩ (hnone image)
  · rw [hget]
    exact get?_map_fields (fun field => field.kind.default) hmem

/-- **A map is read as the record of what it gives.** -/
theorem decodeEntries_eq_ok_iff (hnodup : entries.keys.Nodup) :
    decodeEntries family of entries (family of).default = .ok record ↔
      ∃ value : Field n → FieldValue,
        (∀ field image, family.Gives of entries field image →
          decodeField family field.name field.kind image = .ok (value field)) ∧
        (∀ field ∈ (family of).fields, (∀ image, ¬family.Gives of entries field image) →
          value field = field.kind.default) ∧
        record = (family of).fields.map fun field => (field.name, value field) := by
  have hkeys : ∀ {record}, decodeEntries family of entries (family of).default = .ok record →
      record.keys = (family of).fields.map Field.name := fun h =>
    keys_of_decodeEntries h (Registry.default_fits family of).keys_eq
  constructor
  · intro h
    refine ⟨fun field => (record.get? field.name).getD .absent, ?_, ?_, ?_⟩
    · intro field image hgives
      obtain ⟨value, hvalue, hget⟩ := get?_of_gives hnodup h hgives
      dsimp only
      rw [hvalue, hget, Option.getD_some]
    · intro field hfield hnone
      dsimp only
      rw [get?_of_not_gives h hfield hnone, Option.getD_some]
    · refine Record.eq_map_fields (hkeys h) fun field hfield => ?_
      have hname : field.name ∈ record.keys := hkeys h ▸ List.mem_map.mpr ⟨field, hfield, rfl⟩
      obtain ⟨value, hget⟩ := Option.isSome_iff_exists.mp
        ((Entries.isSome_get?_iff record field.name).mpr hname)
      rw [hget, Option.getD_some]
  · rintro ⟨value, hgiven, hdefault, rfl⟩
    obtain ⟨record, hrecord⟩ := exists_decodeEntries (family of).default
      fun field image hgives => ⟨_, hgiven field image hgives⟩
    have hget : ∀ field ∈ (family of).fields, record.get? field.name = some (value field) := by
      intro field hfield
      by_cases hsome : ∃ image, family.Gives of entries field image
      · obtain ⟨image, hgives⟩ := hsome
        obtain ⟨decoded, hdecoded, hget⟩ := get?_of_gives hnodup hrecord hgives
        rw [hgiven field image hgives] at hdecoded
        rw [hget, Except.ok.inj hdecoded]
      · rw [not_exists] at hsome
        rw [get?_of_not_gives hrecord hfield hsome, hdefault field hfield hsome]
    rw [hrecord, Record.eq_map_fields (hkeys hrecord) hget]

end Reading

theorem Family.Gives.wellFormed {entries : Entries AttributeValue} {field : Field n}
    {image : AttributeValue} (h : family.Gives of entries field image)
    (hwf : (AttributeValue.map entries).WellFormed) : image.WellFormed := by
  rw [AttributeValue.WellFormed, AttributeValue.wellFormedEntries_iff] at hwf
  exact hwf.2 _ h.2.1

/-- What is said can be read. -/
theorem Decodes.decodeField_eq_ok {kind : FieldKind n} {image : AttributeValue} {value : FieldValue}
    (h : Decodes family kind image value) (hwf : image.WellFormed) (name : String) :
    decodeField family name kind image = .ok value := by
  induction h generalizing name with
  | scalar hdecode => exact decodeField_scalar_eq_ok_iff.mpr ⟨_, hdecode, rfl⟩
  | entity value _ hdefault ih =>
    refine decodeField_entity_eq_ok_iff.mpr ⟨_, _, rfl, ?_, rfl⟩
    rw [decodeEntries_eq_ok_iff hwf.1]
    exact ⟨value, fun field image hgives => ih field image hgives (hgives.wellFormed hwf) _,
      hdefault, rfl⟩
  | @entityList of items records hlength _ ih =>
    rw [AttributeValue.WellFormed, AttributeValue.wellFormedItems_iff] at hwf
    refine decodeField_entityList_eq_ok_iff.mpr ⟨_, _, rfl, ?_, rfl⟩
    refine List.forall₂_iff_get.mpr ⟨hlength, fun i hi hi' => ?_⟩
    have hread := ih i _ _ (List.getElem?_eq_getElem hi) (List.getElem?_eq_getElem hi')
      (hwf _ (List.getElem_mem hi)) ""
    obtain ⟨entries, record, hitem, hrecord, heq⟩ := decodeField_entity_eq_ok_iff.mp hread
    cases heq
    exact ⟨entries, hitem, hrecord⟩

/-- **Reading a value computes what it says**, whatever the name of the field. -/
theorem decodeField_eq_ok_iff {name : String} {kind : FieldKind n} {image : AttributeValue}
    {value : FieldValue} (hwf : image.WellFormed) :
    decodeField family name kind image = .ok value ↔ Decodes family kind image value := by
  refine ⟨fun h => ?_, fun h => h.decodeField_eq_ok hwf name⟩
  revert hwf
  refine decodeField_induction (P := fun kind image value =>
    image.WellFormed → Decodes family kind image value) ?_ ?_ ?_ h
  · exact fun hdecode _ => .scalar hdecode
  · intro of entries record ih hrecord hwf
    obtain ⟨value, hgiven, hdefault, rfl⟩ := (decodeEntries_eq_ok_iff hwf.1).mp hrecord
    refine .entity value (fun field image hgives => ?_) hdefault
    exact ih _ hgives.2.1 (hgiven field image hgives) (hgives.wellFormed hwf)
  · intro of items records h hwf
    rw [AttributeValue.WellFormed, AttributeValue.wellFormedItems_iff] at hwf
    obtain ⟨hlength, hget⟩ := List.forall₂_iff_get.mp h
    refine .entityList hlength fun i item record hitem hrecord => ?_
    obtain ⟨hi, rfl⟩ := List.getElem?_eq_some_iff.mp hitem
    obtain ⟨hi', rfl⟩ := List.getElem?_eq_some_iff.mp hrecord
    exact hget i hi hi' (hwf _ (List.getElem_mem hi))

/-! ## Values that say the same -/

/-- Values that say the same about a field.  What is equal up to the order of maps, at any depth,
says the same; and so do maps that give values to the same fields, whatever other entries they
have, if the values say the same. -/
inductive Agree (family : Family n) : FieldKind n → AttributeValue → AttributeValue → Prop
  | same {kind : FieldKind n} {image image' : AttributeValue} : image.same image' = true →
    Agree family kind image image'
  | entity {of : Fin n} {entries entries' : Entries AttributeValue} :
    (∀ field, (∃ image, family.Gives of entries field image) ↔
      ∃ image', family.Gives of entries' field image') →
    (∀ field image image', family.Gives of entries field image →
      family.Gives of entries' field image' → Agree family field.kind image image') →
    Agree family (.entity of) (.map entries) (.map entries')
  | entityList {of : Fin n} {items items' : List AttributeValue} : items.length = items'.length →
    (∀ (i : Nat) (item item' : AttributeValue), items[i]? = some item → items'[i]? = some item' →
      Agree family (.entity of) item item') →
    Agree family (.entityList of) (.list items) (.list items')

/-- What keeps a scalar has no maps inside, so there is nothing to reorder. -/
theorem ScalarType.decode_of_same {type : ScalarType} {image image' : AttributeValue}
    {value : ScalarValue} (h : type.decode image = .ok value) (hsame : image.same image' = true) :
    type.decode image' = .ok value := by
  cases hnested : image.isNested with
  | false => rwa [← (AttributeValue.same_iff_eq hnested).mp hsame]
  | true =>
    cases image with
    | list items =>
      obtain ⟨items', rfl, hitems⟩ := AttributeValue.same_list_iff.mp hsame
      cases type with
      | strings =>
        obtain ⟨texts, htexts, -⟩ := Except.map_eq_ok_iff.mp h
        -- Every item is a text, which is like itself alone.
        have htext := Except.forall₂_of_mapM_eq_ok htexts
        have heq : items = items' := by
          clear h hsame htexts
          induction hitems generalizing texts with
          | nil => rfl
          | @cons item item' rest rest' hitem _ ih =>
            cases htext with
            | cons hread hrest =>
              cases item with
              | string text => rw [(AttributeValue.same_iff_eq rfl).mp hitem, ih rfl _ hrest]
              | _ => cases hread
        rwa [← heq]
      | _ => cases h
    | map entries => cases type <;> cases h
    | _ => cases hnested

/-- What a map gives, an equal map gives in another order. -/
theorem Family.Gives.exists_of_same {entries entries' : Entries AttributeValue}
    (hwf : (AttributeValue.map entries).WellFormed)
    (hsame : (AttributeValue.map entries).same (.map entries') = true) {field : Field n}
    {image' : AttributeValue} (h : family.Gives of entries' field image') :
    ∃ image, family.Gives of entries field image ∧ image.same image' = true := by
  obtain ⟨hfield, hentry, hnull⟩ := h
  obtain ⟨image, hmem, himage⟩ := AttributeValue.exists_mem_of_same hwf.1 hsame hentry
  exact ⟨image, ⟨hfield, hmem, (AttributeValue.isNull_of_same himage).trans hnull⟩, himage⟩

/-- The order of maps makes no difference to what is said. -/
theorem Decodes.of_same {kind : FieldKind n} {image image' : AttributeValue} {value : FieldValue}
    (h : Decodes family kind image value) (hwf : image.WellFormed)
    (hsame : image.same image' = true) : Decodes family kind image' value := by
  induction h generalizing image' with
  | scalar hdecode => exact .scalar (ScalarType.decode_of_same hdecode hsame)
  | entity value _ hdefault ih =>
    obtain ⟨entries', rfl, -⟩ := AttributeValue.same_map_iff.mp hsame
    have hsame' := AttributeValue.same_symm hwf hsame
    refine .entity value (fun field image' hgives' => ?_) fun field hfield hnone => ?_
    · obtain ⟨image, hgives, himage⟩ := hgives'.exists_of_same hwf hsame
      exact ih field image hgives (hgives.wellFormed hwf) himage
    · refine hdefault field hfield fun image hgives => ?_
      obtain ⟨image', hgives', -⟩ := hgives.exists_of_same (hwf.of_same hsame) hsame'
      exact hnone image' hgives'
  | entityList hlength _ ih =>
    obtain ⟨items', rfl, hitems⟩ := AttributeValue.same_list_iff.mp hsame
    rw [AttributeValue.WellFormed, AttributeValue.wellFormedItems_iff] at hwf
    obtain ⟨hlength', hget⟩ := List.forall₂_iff_get.mp hitems
    refine .entityList (hlength'.symm.trans hlength) fun i item' record hitem' hrecord => ?_
    obtain ⟨hi', rfl⟩ := List.getElem?_eq_some_iff.mp hitem'
    have hi := hlength'.symm ▸ hi'
    exact ih i _ record (List.getElem?_eq_getElem hi) hrecord (hwf _ (List.getElem_mem hi))
      (hget i hi hi')

/-- **Values that agree say the same.** -/
theorem Decodes.agree {kind : FieldKind n} {image image' : AttributeValue} {value : FieldValue}
    (h : Decodes family kind image value) (hwf : image.WellFormed)
    (hagree : Agree family kind image image') : Decodes family kind image' value := by
  induction hagree generalizing value with
  | same hsame => exact h.of_same hwf hsame
  | entity hgives _ ih =>
    cases h with
    | entity value hgiven hdefault =>
      refine .entity value (fun field image' himage' => ?_) fun field hfield hnone => ?_
      · obtain ⟨image, himage⟩ := (hgives field).mpr ⟨image', himage'⟩
        exact ih field image image' himage himage' (hgiven field image himage)
          (himage.wellFormed hwf)
      · refine hdefault field hfield fun image himage => ?_
        obtain ⟨image', himage'⟩ := (hgives field).mp ⟨image, himage⟩
        exact hnone image' himage'
  | entityList hlength' _ ih =>
    rw [AttributeValue.WellFormed, AttributeValue.wellFormedItems_iff] at hwf
    cases h with
    | entityList hlength hread =>
      refine .entityList (hlength'.symm.trans hlength) fun i item' record hitem' hrecord => ?_
      obtain ⟨hi', -⟩ := List.getElem?_eq_some_iff.mp hitem'
      have hitem := List.getElem?_eq_getElem (hlength'.symm ▸ hi')
      exact ih i _ item' hitem hitem' (hread i _ record hitem hrecord)
        (hwf _ (List.mem_of_getElem? hitem))

theorem Agree.symm {kind : FieldKind n} {image image' : AttributeValue}
    (h : Agree family kind image image') (hwf : image.WellFormed) :
    Agree family kind image' image := by
  induction h with
  | same hsame => exact .same (AttributeValue.same_symm hwf hsame)
  | entity hgives _ ih =>
    refine .entity (fun field => (hgives field).symm) fun field image' image himage' himage => ?_
    exact ih field image image' himage himage' (himage.wellFormed hwf)
  | entityList hlength _ ih =>
    rw [AttributeValue.WellFormed, AttributeValue.wellFormedItems_iff] at hwf
    refine .entityList hlength.symm fun i item' item hitem' hitem => ?_
    exact ih i item item' hitem hitem' (hwf _ (List.mem_of_getElem? hitem))

/-- What a map gives, in the order of the declarations: whatever else is in the map, and in whatever
order, does not show. -/
def Family.given (family : Family n) (of : Fin n) (entries : Entries AttributeValue) :
    List (Field n × AttributeValue) :=
  (family of).fields.filterMap fun field =>
    ((entries.get? field.name).filter fun image => !image.isNull).map (field, ·)

theorem Family.mem_given_iff {entries : Entries AttributeValue} (hnodup : entries.keys.Nodup)
    {field : Field n} {image : AttributeValue} :
    (field, image) ∈ family.given of entries ↔ family.Gives of entries field image := by
  have hget : Entries.get? entries field.name = some image ↔ (field.name, image) ∈ entries :=
    ⟨Entries.mem_of_get?, Entries.get?_of_mem hnodup⟩
  rw [Family.Gives, ← hget, Family.given, List.mem_filterMap]
  simp only [Option.map_eq_some_iff, Option.filter_eq_some_iff, Prod.mk.injEq, Bool.not_eq_true']
  constructor
  · rintro ⟨_, hfield, _, hgiven, rfl, rfl⟩
    exact ⟨hfield, hgiven⟩
  · rintro ⟨hfield, hgiven⟩
    exact ⟨field, hfield, image, hgiven, rfl, rfl⟩

/-- Maps agree that give values which agree. -/
theorem Agree.of_given {entries entries' : Entries AttributeValue} (hnodup : entries.keys.Nodup)
    (hnodup' : entries'.keys.Nodup)
    (h : List.Forall₂ (fun given given' => given.1 = given'.1 ∧
      Agree family given.1.kind given.2 given'.2)
        (family.given of entries) (family.given of entries')) :
    Agree family (.entity of) (.map entries) (.map entries') := by
  refine .entity (fun field => ⟨?_, ?_⟩) fun field image image' hgives hgives' => ?_
  · rintro ⟨image, hgives⟩
    obtain ⟨⟨_, image'⟩, hmem, rfl, -⟩ := exists_mem_of_forall₂ h.flip _
      ((Family.mem_given_iff hnodup).mpr hgives)
    exact ⟨image', (Family.mem_given_iff hnodup').mp hmem⟩
  · rintro ⟨image', hgives'⟩
    obtain ⟨⟨_, image⟩, hmem, rfl, -⟩ := exists_mem_of_forall₂ h _
      ((Family.mem_given_iff hnodup').mpr hgives')
    exact ⟨image, (Family.mem_given_iff hnodup).mp hmem⟩
  · obtain ⟨⟨_, other⟩, hmem, rfl, hagree⟩ := exists_mem_of_forall₂ h _
      ((Family.mem_given_iff hnodup').mpr hgives')
    -- The map has one entry of the name.
    have hother := ((Family.mem_given_iff hnodup).mp hmem).2.1
    obtain rfl : other = image := Option.some.inj
      ((Entries.get?_of_mem hnodup hother).symm.trans (Entries.get?_of_mem hnodup hgives.2.1))
    exact hagree

/-! ## The errors -/

/-- The errors of a value that says nothing about a field of a name.  A scalar is not of its type;
an entity is no map, or its map gives a field a value that fails; a list of entities is no list, or
has an element that fails, of which the first counts.  An element fails like an entity under a name
with its index. -/
inductive Fails (family : Family n) :
    String → FieldKind n → AttributeValue → MappingError → Prop
  | scalar {name : String} {type : ScalarType} {optional : Bool} {image : AttributeValue}
    {cause : CodecError} : type.decode image = .error cause →
    Fails family name (.scalar type optional) image (.field name cause)
  | notMap {name : String} {of : Fin n} {image : AttributeValue} :
    (∀ entries, image ≠ .map entries) →
    Fails family name (.entity of) image
      (.nested name (.field (family of).entity (.typeMismatch .map image.type)))
  | entry {name : String} {of : Fin n} {entries : Entries AttributeValue} {field : Field n}
    {image : AttributeValue} {e : MappingError} : family.Gives of entries field image →
    Fails family field.name field.kind image e →
    Fails family name (.entity of) (.map entries) (.nested name e)
  | notList {name : String} {of : Fin n} {image : AttributeValue} :
    (∀ items, image ≠ .list items) →
    Fails family name (.entityList of) image (.field name (.typeMismatch .list image.type))
  | element {name : String} {of : Fin n} {items : List AttributeValue} {i : Nat}
    {item : AttributeValue} {e : MappingError} : items[i]? = some item →
    (∀ j earlier, j < i → items[j]? = some earlier →
      ∃ value, Decodes family (.entity of) earlier value) →
    Fails family (elementName name i) (.entity of) item e →
    Fails family name (.entityList of) (.list items) e

/-- What fails says nothing. -/
theorem Fails.not_decodes {name : String} {kind : FieldKind n} {image : AttributeValue}
    {e : MappingError} (h : Fails family name kind image e) (value : FieldValue) :
    ¬Decodes family kind image value := by
  intro hdecodes
  induction h generalizing value with
  | scalar herror =>
    cases hdecodes with
    | scalar hok => rw [hok] at herror; cases herror
  | notMap hmap => cases hdecodes with | entity => exact hmap _ rfl
  | entry hgives _ ih => cases hdecodes with | entity value hgiven => exact ih _ (hgiven _ _ hgives)
  | notList hlist => cases hdecodes with | entityList => exact hlist _ rfl
  | element hitem _ _ ih =>
    cases hdecodes with
    | entityList hlength hread =>
      obtain ⟨hi, -⟩ := List.getElem?_eq_some_iff.mp hitem
      exact ih _ (hread _ _ _ hitem (List.getElem?_eq_getElem (hlength ▸ hi)))

/-- The error of a map is that of a value that it gives to some field. -/
theorem exists_of_decodeEntries_eq_error {entries : Entries AttributeValue} {start : Record}
    {e : MappingError} (h : decodeEntries family of entries start = .error e) :
    ∃ field image, family.Gives of entries field image ∧
      decodeField family field.name field.kind image = .error e := by
  induction entries generalizing start with
  | nil => cases h
  | cons entry rest ih =>
    obtain ⟨name, image⟩ := entry
    have hrest : ∀ {start}, decodeEntries family of rest start = .error e →
        ∃ field image', family.Gives of ((name, image) :: rest) field image' ∧
          decodeField family field.name field.kind image' = .error e := by
      intro start herror
      obtain ⟨field, image', ⟨hmem, hentry, hnull⟩, hfails⟩ := ih herror
      exact ⟨field, image', ⟨hmem, List.mem_cons_of_mem _ hentry, hnull⟩, hfails⟩
    rw [decodeEntries] at h
    split at h
    · exact hrest h
    next field hfield =>
    split at h
    · exact hrest h
    next hnull =>
    obtain ⟨hmem, rfl⟩ := Registry.field?_eq_some_iff.mp hfield
    cases hdecode : decodeField family field.name field.kind image with
    | error cause =>
      rw [hdecode] at h
      cases h
      exact ⟨field, image, ⟨hmem, List.mem_cons_self .., Bool.eq_false_iff.mpr hnull⟩, hdecode⟩
    | ok value =>
      rw [hdecode] at h
      exact hrest h

/-- A list fails at its first element, read like an entity under a name with its index, or behind
it. -/
theorem decodeElements_cons_eq_error {name : String} {index : Nat} {item : AttributeValue}
    {rest : List AttributeValue} {e : MappingError}
    (h : decodeElements family name of index (item :: rest) = .error e) :
    decodeField family (elementName name index) (.entity of) item = .error e ∨
      (∃ value, decodeField family (elementName name index) (.entity of) item = .ok value) ∧
        decodeElements family name of (index + 1) rest = .error e := by
  cases item with
  | map entries =>
    rw [decodeElements] at h
    rw [decodeField]
    cases hrecord : decodeEntries family of entries (family of).default with
    | error cause =>
      rw [hrecord] at h
      cases h
      exact .inl rfl
    | ok record =>
      rw [hrecord] at h
      refine .inr ⟨⟨_, rfl⟩, ?_⟩
      cases hrest : decodeElements family name of (index + 1) rest with
      | error cause =>
        dsimp only at h
        rw [hrest] at h
        exact h
      | ok records =>
        dsimp only at h
        rw [hrest] at h
        cases h
  | _ =>
    cases h
    exact .inl rfl

/-- The error of a list is that of its first element that is no entity. -/
theorem exists_of_decodeElements_eq_error {name : String} {index : Nat}
    {items : List AttributeValue} {e : MappingError}
    (h : decodeElements family name of index items = .error e) :
    ∃ i item, items[i]? = some item ∧
      (∀ j earlier, j < i → items[j]? = some earlier → ∃ value,
        decodeField family (elementName name (index + j)) (.entity of) earlier = .ok value) ∧
      decodeField family (elementName name (index + i)) (.entity of) item = .error e := by
  induction items generalizing index with
  | nil => cases h
  | cons first rest ih =>
    rcases decodeElements_cons_eq_error h with hfirst | ⟨hfirst, hrest⟩
    · exact ⟨0, first, rfl, by simp, hfirst⟩
    · obtain ⟨i, item, hitem, hearlier, hfails⟩ := ih hrest
      rw [Nat.add_right_comm] at hfails
      refine ⟨i + 1, item, hitem, fun j earlier hj hget => ?_, hfails⟩
      cases j with
      | zero => exact Option.some.inj hget ▸ hfirst
      | succ j =>
        have hread := hearlier j earlier (Nat.lt_of_succ_lt_succ hj) hget
        rwa [Nat.add_right_comm] at hread

theorem fails_of_decodeField_scalar {name : String} {type : ScalarType} {optional : Bool}
    {image : AttributeValue} {e : MappingError}
    (h : decodeField family name (.scalar type optional) image = .error e) :
    Fails family name (.scalar type optional) image e := by
  rw [decodeField] at h
  cases hdecode : type.decode image with
  | ok value => rw [hdecode] at h; cases h
  | error cause =>
    rw [hdecode] at h
    cases h
    exact .scalar hdecode

/-- **The error of a value is that of a field inside it**, wrapped once for every entity and every
element on the way down. -/
theorem fails_of_decodeField {name : String} {kind : FieldKind n} {image : AttributeValue}
    {e : MappingError} (hwf : image.WellFormed)
    (h : decodeField family name kind image = .error e) : Fails family name kind image e := by
  induction image generalizing name kind e with
  | map entries ih =>
    cases kind with
    | scalar type optional => exact fails_of_decodeField_scalar h
    | entity of =>
      rw [decodeField] at h
      cases hrecord : decodeEntries family of entries (family of).default with
      | ok record => rw [hrecord] at h; cases h
      | error cause =>
        rw [hrecord] at h
        cases h
        obtain ⟨field, image, hgives, hfails⟩ := exists_of_decodeEntries_eq_error hrecord
        exact .entry hgives (ih _ hgives.2.1 (hgives.wellFormed hwf) hfails)
    | entityList of => cases h; exact .notList (by simp)
  | list items ih =>
    cases kind with
    | scalar type optional => exact fails_of_decodeField_scalar h
    | entity of => cases h; exact .notMap (by simp)
    | entityList of =>
      rw [AttributeValue.WellFormed, AttributeValue.wellFormedItems_iff] at hwf
      rw [decodeField] at h
      cases hrecords : decodeElements family name of 0 items with
      | ok records => rw [hrecords] at h; cases h
      | error cause =>
        rw [hrecords] at h
        cases h
        obtain ⟨i, item, hitem, hearlier, hfails⟩ := exists_of_decodeElements_eq_error hrecords
        rw [Nat.zero_add] at hfails
        have hmem := List.mem_of_getElem? hitem
        refine .element hitem (fun j earlier hj hget => ?_) (ih item hmem (hwf item hmem) hfails)
        obtain ⟨value, hvalue⟩ := hearlier j earlier hj hget
        exact ⟨value, (decodeField_eq_ok_iff (hwf _ (List.mem_of_getElem? hget))).mp hvalue⟩
  | _ =>
    cases kind with
    | scalar type optional => exact fails_of_decodeField_scalar h
    | entity of => cases h; exact .notMap (by simp)
    | entityList of => cases h; exact .notList (by simp)

/-! ## Items -/

namespace Family

/-- The record of an item is what the item says as the map of an entity. -/
theorem transform_eq_ok_iff {item : Item} {record : Record}
    (hwf : (AttributeValue.ofItem item).WellFormed) : family.transform of item = .ok record ↔
      Decodes family (.entity of) (.ofItem item) (.entity record) := by
  have hfield : decodeField family "" (.entity of) (.ofItem item) = .ok (.entity record) ↔ _ :=
    decodeField_eq_ok_iff hwf
  rw [← hfield, decodeField_entity_eq_ok_iff]
  constructor
  · exact fun h => ⟨_, record, rfl, h, rfl⟩
  · rintro ⟨_, _, ⟨⟩, h, ⟨⟩⟩
    exact h

/-- **The record of an item is what the item says, and no order counts.**  Reading goes through
exactly when each value that the item gives to a declared field can be read.  The record has what
those values decode to and defaults for the other fields; so items that agree have one record, as
do those that differ in the order of maps or in entries without a declared name or with a null, at
any depth.  An error is that of a field to which the item gives a value that cannot be read. -/
theorem transform_exact (family : Family n) (of : Fin n) (item : Item)
    (hwf : (AttributeValue.ofItem item).WellFormed) :
    (∀ record, family.transform of item = .ok record ↔
      Decodes family (.entity of) (.ofItem item) (.entity record)) ∧
    ((∃ record, family.transform of item = .ok record) ↔
      ∀ field image, family.Gives of item.entries field image →
        ∃ value, Decodes family field.kind image value) ∧
    (∀ item', (AttributeValue.ofItem item').WellFormed →
      Agree family (.entity of) (.ofItem item) (.ofItem item') →
        ∀ record, family.transform of item = .ok record ↔
          family.transform of item' = .ok record) ∧
    ∀ e, family.transform of item = .error e → ∃ field image,
      family.Gives of item.entries field image ∧ Fails family field.name field.kind image e ∧
        ∀ value, ¬Decodes family field.kind image value := by
  refine ⟨fun record => transform_eq_ok_iff hwf, ⟨?_, ?_⟩, ?_, ?_⟩
  · rintro ⟨record, hrecord⟩ field image hgives
    cases (transform_eq_ok_iff hwf).mp hrecord with
    | entity value hgiven => exact ⟨_, hgiven field image hgives⟩
  · intro h
    refine exists_decodeEntries _ fun field image hgives => ?_
    obtain ⟨value, hvalue⟩ := h field image hgives
    exact ⟨value, hvalue.decodeField_eq_ok (hgives.wellFormed hwf) _⟩
  · intro item' hwf' hagree record
    rw [transform_eq_ok_iff hwf, transform_eq_ok_iff hwf']
    exact ⟨fun h => h.agree hwf hagree, fun h => h.agree hwf' (hagree.symm hwf)⟩
  · intro e he
    obtain ⟨field, image, hgives, herror⟩ := exists_of_decodeEntries_eq_error he
    have hfails := fails_of_decodeField (hgives.wellFormed hwf) herror
    exact ⟨field, image, hgives, hfails, hfails.not_decodes⟩

/-- Two items of a shelf that differ in order, in unknown names and in nulls, also inside a book,
and one whose second book is a null. -/
theorem transform_exact_shelf :
    let item : Item := ⟨[
      ("books", .list [.map [("shade", .string "red"), ("weight", .null true),
        ("title", .string "Emma")]]),
      ("owner", .string "Ann"), ("label", .string "low"), ("above", .null true)], by decide⟩
    let item' : Item := ⟨[
      ("label", .string "low"), ("books", .list [.map [("title", .string "Emma")]])], by decide⟩
    let broken : Item := ⟨[
      ("label", .string "low"), ("books", .list [.map [], .null true])], by decide⟩
    (∃ record, shelves.transform 0 item = .ok record ∧ shelves.transform 0 item' = .ok record) ∧
    ∃ e field image, shelves.transform 0 broken = .error e ∧
      e = .nested "books[1]" (.field "Book" (.typeMismatch .map .null)) ∧
      shelves.Gives 0 broken.entries field image ∧ Fails shelves field.name field.kind image e := by
  intro item item' broken
  obtain ⟨hwf, hwf', hbroken⟩ : (AttributeValue.ofItem item).WellFormed ∧
      (AttributeValue.ofItem item').WellFormed ∧ (AttributeValue.ofItem broken).WellFormed := by
    simp [item, item', broken, AttributeValue.ofItem, AttributeValue.WellFormed,
      AttributeValue.WellFormedEntries, AttributeValue.WellFormedItems, Entries.keys]
  have hbook : Agree shelves (.entity 1)
      (.map [("shade", .string "red"), ("weight", .null true), ("title", .string "Emma")])
      (.map [("title", .string "Emma")]) :=
    .of_given (by decide) (by decide) (.cons ⟨rfl, .same rfl⟩ .nil)
  have hagree : Agree shelves (.entity 0) (.ofItem item) (.ofItem item') := by
    refine .of_given (by decide) (by decide) (.cons ⟨rfl, .same rfl⟩ (.cons ⟨rfl, ?_⟩ .nil))
    refine .entityList rfl fun i book book' hget hget' => ?_
    cases i with
    | zero => cases hget; cases hget'; exact hbook
    | succ i => cases hget
  have hkeys : (shelves.transform 0 item').toOption.map Entries.keys =
      some ["label", "books", "above"] := by
    decide +kernel
  obtain ⟨record, hrecord, -⟩ := Except.exists_of_toOption hkeys
  have herror : shelves.transform 0 broken =
      .error (.nested "books[1]" (.field "Book" (.typeMismatch .map .null))) := rfl
  obtain ⟨-, -, hsame, -⟩ := transform_exact shelves 0 item hwf
  obtain ⟨-, -, -, hfails⟩ := transform_exact shelves 0 broken hbroken
  obtain ⟨field, image, hgives, hfield, -⟩ := hfails _ herror
  exact ⟨⟨record, (hsame item' hwf' hagree record).mpr hrecord, hrecord⟩,
    _, field, image, herror, rfl, hgives, hfield⟩

end Family

end DocExpr
