import DocExpr.Proofs.Export

/-!
# Records come back from their items

Reading starts from the defaults, skips what is unknown or null, and takes up the other entries one
by one.  So a record comes back from what was written of it if three things agree at every depth:
the scalar rules, which are inverse to one another on values that fit; the names, which are
distinct, so that the order of the entries does not matter; and the defaults, which stand for what
was not written.

## Main definitions

* `FieldValue.ReadsBack`: what is kept of a value is read as this value

## Main results

* `ScalarType.decode_encode`: the rules for scalars
* `decodeEntries_eq_ok`: the order of the entries does not matter
* `FieldValue.readsBack`: the values of fields, at any depth
* `Family.transform_exportItem`: a record comes back from its item, in whatever order a store gives
  the entries of its maps
-/

namespace DocExpr

variable {n : Nat} {family : Family n}

/-! ## Scalars -/

namespace Ordered

variable {α : Type} [LT α] [DecidableLT α] [DecidableEq α] [Std.Irrefl fun a b : α => a < b]

/-- A set is its own list of members. -/
theorem ofList_of_ascending {l : List α} (h : l.Pairwise (· < ·)) : ofList l = l := by
  induction l with
  | nil => rfl
  | cons x rest ih =>
    obtain ⟨hx, hrest⟩ := List.pairwise_cons.mp h
    rw [ofList, ih hrest]
    cases rest with
    | nil => rfl
    | cons y rest =>
      have hlt : x < y := hx y (List.mem_cons_self ..)
      have hne : x ≠ y := fun heq => Std.Irrefl.irrefl y (heq ▸ hlt)
      rw [insert, if_neg hne, if_pos hlt]

end Ordered

theorem mapM_map_eq_ok {ε α β : Type} {f : α → β} {g : β → Except ε α} {l : List α}
    (h : ∀ a ∈ l, g (f a) = .ok a) : (l.map f).mapM g = .ok l := by
  induction l with
  | nil => rfl
  | cons a rest ih =>
    obtain ⟨ha, hrest⟩ := List.forall_mem_cons.mp h
    rw [List.map_cons, List.mapM_cons, ha, ih hrest]
    rfl

namespace ScalarType

theorem decodeInteger_toString {type : IntegerType} {value : Int} (h : type.contains value = true) :
    decodeInteger type (toString value) = .ok value := by
  rw [decodeInteger, IntegerType.read?_toString type h]

/-- **A scalar is read back from the value that keeps it.** -/
theorem decode_encode {type : ScalarType} {value : ScalarValue} (h : type.Holds value) :
    type.decode value.encode = .ok value := by
  cases type <;> cases value <;> try exact h.elim
  case string.string => rfl
  case bool.bool => rfl
  case bytes.bytes => rfl
  case integer.integer type value =>
    rw [ScalarValue.encode, decode, decodeInteger_toString h]
    rfl
  case float.float format format' value =>
    obtain ⟨rfl, hvalue⟩ := h
    rw [ScalarValue.encode, decode, decodeFloat, FloatFormat.read?_text hvalue]
    rfl
  case strings.strings items =>
    have hitems : (items.map AttributeValue.string).mapM decodeString = .ok items :=
      mapM_map_eq_ok fun _ _ => rfl
    rw [ScalarValue.encode, decode, hitems]
    rfl
  case stringSet.stringSet members =>
    rw [ScalarValue.encode, decode, Ordered.ofList_of_ascending h]
  case integerSet.integerSet members =>
    have hmembers : (members.map toString).mapM (decodeInteger .int64) = .ok members :=
      mapM_map_eq_ok fun member hmember => decodeInteger_toString (h.2 member hmember)
    rw [ScalarValue.encode, decode, hmembers]
    exact congrArg (Except.ok ∘ ScalarValue.integerSet) (Ordered.ofList_of_ascending h.1)

end ScalarType

/-- What keeps a scalar holds no map, so there is nothing to reorder. -/
theorem ScalarValue.eq_encode_of_same {value : ScalarValue} {image : AttributeValue}
    (h : value.encode.same image = true) : image = value.encode := by
  cases value with
  | strings items =>
    obtain ⟨images, rfl, himages⟩ := AttributeValue.same_list_iff.mp h
    rw [List.forall₂_map_left_iff] at himages
    clear h
    induction himages with
    | nil => rfl
    | cons himage _ ih =>
      rw [encode, AttributeValue.list.injEq] at ih ⊢
      rw [← (AttributeValue.same_iff_eq rfl).mp himage, ih, List.map_cons]
  | _ => exact ((AttributeValue.same_iff_eq rfl).mp h).symm

/-! ## Entries in any order -/

/-- **Reading leads to a record if every entry is read as the record has it** and the record agrees
with the start where nothing is read. -/
theorem decodeEntries_eq_ok {of : Fin n} {entries : Entries AttributeValue} {start target : Record}
    (hentries : ∀ entry ∈ entries, entry.2.isNull = false ∧ ∃ field,
      (family of).field? entry.1 = some field ∧ ∃ value, target.get? entry.1 = some value ∧
        decodeField family entry.1 field.kind entry.2 = .ok value)
    (hkeys : start.keys = target.keys) (nodup : target.keys.Nodup)
    (hothers : ∀ name, name ∉ entries.keys → start.get? name = target.get? name) :
    decodeEntries family of entries start = .ok target := by
  -- What was read so far is the start for the rest, so the start is not fixed.
  induction entries generalizing start with
  | nil =>
    have heq : (⟨start, hkeys ▸ nodup⟩ : Dict FieldValue) = ⟨target, nodup⟩ :=
      Dict.ext_get? hkeys fun name => hothers name (by simp [Entries.keys])
    exact congrArg (Except.ok ∘ Dict.entries) heq
  | cons entry rest ih =>
    obtain ⟨name, image⟩ := entry
    obtain ⟨⟨hnull, field, hfield, value, htarget, hdecode⟩, hrest⟩ :=
      List.forall_mem_cons.mp hentries
    have hname : name ∈ start.keys :=
      hkeys ▸ List.mem_map.mpr ⟨_, Entries.mem_of_get? htarget, rfl⟩
    simp only [decodeEntries, hfield, hnull, Bool.false_eq_true, if_false, hdecode, bind,
      Except.bind]
    refine ih hrest ?_ fun other hother => ?_
    · rw [Entries.keys_set, if_pos hname, hkeys]
    · -- The name that was just read has its value from now on.
      rw [Entries.get?_set]
      split
      · next heq => rw [← heq, htarget]
      · next hne =>
        exact hothers other (List.mem_cons.not.mpr (not_or.mpr ⟨Ne.symm hne, hother⟩))

/-- A field that keeps nothing has its default. -/
theorem Record.Fits.get?_default {of : Fin n} {record : Record} (h : record.Fits family of)
    {name : String} (hname : name ∉ Entries.keys (keptEntries family of record)) :
    Entries.get? (family of).default name = record.get? name := by
  have hdefault := Registry.default_fits family of
  by_cases hdeclared : name ∈ record.keys
  · obtain ⟨⟨_, value⟩, hvalue, rfl⟩ := List.mem_map.mp hdeclared
    obtain ⟨field, hfield, hfits⟩ := h.exists_field hvalue
    -- Only an absent value keeps nothing, and only a field that starts absent can be absent.
    have hkept : value.kept? family field.kind = none := by
      by_contra hsome
      obtain ⟨kept, hkept⟩ := Option.ne_none_iff_exists'.mp hsome
      exact hname (List.mem_map.mpr
        ⟨_, mem_keptEntries_iff.mpr ⟨value, hvalue, field, hfield, hkept⟩, rfl⟩)
    obtain rfl := hfits.eq_absent hkept
    obtain ⟨hmem, hfieldname⟩ := Registry.field?_eq_some_iff.mp hfield
    have hstart : (field.name, field.kind.default) ∈ (family of).default :=
      List.mem_map.mpr ⟨field, hmem, rfl⟩
    rw [Entries.get?_of_mem h.nodup_keys hvalue, ← hfieldname,
      Entries.get?_of_mem hdefault.nodup_keys hstart, FieldValue.fits_absent_iff.mp hfits]
  · rw [(Entries.get?_eq_none_iff record name).mpr hdeclared, Entries.get?_eq_none_iff,
      hdefault.keys_eq, ← h.keys_eq]
    exact hdeclared

/-! ## Values of fields -/

/-- What is kept of a value is read as this value, wherever it fits and in whatever order its maps
are written. -/
def FieldValue.ReadsBack (family : Family n) (value : FieldValue) : Prop :=
  ∀ (name : String) (kind : FieldKind n) (kept image : AttributeValue), value.Fits family kind →
    value.kept? family kind = some kept → kept.same image = true →
      decodeField family name kind image = .ok value

section Reading

variable {of : Fin n}

theorem decodeEntries_of_readsBack {record : Record} (h : record.Fits family of)
    (hvalues : ∀ entry ∈ record, entry.2.ReadsBack family) {images : Entries AttributeValue}
    (hsame : (AttributeValue.map (keptEntries family of record)).same (.map images) = true) :
    decodeEntries family of images (family of).default = .ok record := by
  have hdefault := Registry.default_fits family of
  refine decodeEntries_eq_ok ?_ (hdefault.keys_eq.trans h.keys_eq.symm) h.nodup_keys ?_
  · -- An entry that is read is a kept one, with its own maps in another order.
    rintro ⟨name, image⟩ himage
    obtain ⟨kept, hkept, hsame⟩ := AttributeValue.exists_mem_of_same h.nodup_keys_kept hsame himage
    obtain ⟨value, hvalue, field, hfield, hfits, hkept⟩ := h.exists_of_mem_kept hkept
    exact ⟨AttributeValue.isNull_of_same hsame ▸ hfits.isNull_kept hkept, field, hfield, value,
      Entries.get?_of_mem h.nodup_keys hvalue,
      hvalues _ hvalue name field.kind kept image hfits hkept hsame⟩
  · intro name hname
    have hunkept : name ∉ Entries.keys (keptEntries family of record) := fun hkept =>
      hname ((AttributeValue.keys_perm_of_same h.nodup_keys_kept hsame).mem_iff.mp hkept)
    exact h.get?_default hunkept

theorem decodeElements_of_readsBack {elements : List Record}
    (h : ∀ record ∈ elements, record.Fits family of)
    (hvalues : ∀ record ∈ elements, ∀ entry ∈ record, entry.2.ReadsBack family)
    {images : List AttributeValue} (hsame : List.Forall₂
      (fun (record : Record) image =>
        (AttributeValue.map (keptEntries family of record)).same image = true) elements images)
    (name : String) (index : Nat) :
    decodeElements family name of index images = .ok elements := by
  induction hsame generalizing index with
  | nil => rfl
  | cons himage _ ih =>
    obtain ⟨hrecord, hrest⟩ := List.forall_mem_cons.mp h
    obtain ⟨hentries, hothers⟩ := List.forall_mem_cons.mp hvalues
    obtain ⟨entries, rfl, -⟩ := AttributeValue.same_map_iff.mp himage
    rw [decodeElements, decodeEntries_of_readsBack hrecord hentries himage]
    simp only [ih hrest hothers, bind, Except.bind]
    rfl

end Reading

/-- **A value is read back from what is kept of it**, at any depth. -/
theorem FieldValue.readsBack (value : FieldValue) : value.ReadsBack family := by
  induction value with
  | absent =>
    intro name kind kept image _ hkept
    simp [kept?] at hkept
  | scalar value =>
    intro name kind kept image h hkept hsame
    cases kind with
    | scalar type optional =>
      obtain rfl := Option.some.inj hkept
      rw [ScalarValue.eq_encode_of_same hsame, decodeField, ScalarType.decode_encode h]
    | _ => exact h.elim
  | entity fields ih =>
    intro name kind kept image h hkept hsame
    cases kind with
    | entity of =>
      obtain rfl := Option.some.inj hkept
      obtain ⟨images, rfl, -⟩ := AttributeValue.same_map_iff.mp hsame
      rw [decodeField, decodeEntries_of_readsBack h ih hsame]
    | _ => exact h.elim
  | entities elements ih =>
    intro name kind kept image h hkept hsame
    cases kind with
    | entityList of =>
      obtain rfl := Option.some.inj hkept
      obtain ⟨images, rfl, himages⟩ := AttributeValue.same_list_iff.mp hsame
      rw [keptElements_eq, List.forall₂_map_left_iff] at himages
      rw [decodeField, decodeElements_of_readsBack (elementsFit_iff.mp h) ih himages]
      rfl
    | _ => exact h.elim

namespace Family

/-- **A record comes back from its item**, in whatever order a store gives the entries of the item
and of the maps inside it. -/
theorem transform_exportItem (family : Family n) (of : Fin n) (record : Record)
    (h : record.Fits family of) (item : Item) (hexport : family.exportItem of record = .ok item) :
    family.transform of item = .ok record ∧
      ∀ item', (AttributeValue.ofItem item).same (.ofItem item') = true →
        family.transform of item' = .ok record := by
  have hitem : AttributeValue.ofItem item = .map (keptEntries family of record) :=
    congrArg AttributeValue.map (h.exportItem_eq_ok_iff.mp hexport).1
  have hread : ∀ item', (AttributeValue.ofItem item).same (.ofItem item') = true →
      family.transform of item' = .ok record := by
    intro item' hsame
    rw [hitem] at hsame
    exact decodeEntries_of_readsBack h (fun entry _ => entry.2.readsBack) hsame
  exact ⟨hread item (AttributeValue.same_refl (hitem ▸ h.wellFormed_kept)), hread⟩

/-- The shelf, with the entries of its item, of the book and of the shelf above in another order. -/
theorem transform_exportItem_shelf :
    let book : Entries AttributeValue := [("binding", .map [("material", .string "cloth")]),
      ("tags", .stringSet ["novel", "old"]), ("weight", .number "0.5"), ("title", .string "Emma")]
    let above : Entries AttributeValue := [("books", .list []), ("label", .string "high")]
    let item' : Item :=
      ⟨[("above", .map above), ("label", .string "low"), ("books", .list [.map book])], by decide⟩
    (∃ item, shelves.exportItem 0 shelf = .ok item ∧
      (AttributeValue.ofItem item).same (.ofItem item') = true) ∧
    shelves.transform 0 item' = .ok shelf := by
  intro book above item'
  have hsame : (shelves.exportItem 0 shelf).toOption.map (fun item =>
      (AttributeValue.ofItem item).same (.ofItem item')) = some true := by
    decide +kernel
  obtain ⟨item, hexport, hsame⟩ := Except.exists_of_toOption hsame
  exact ⟨⟨item, hexport, hsame⟩,
    (transform_exportItem shelves 0 shelf shelf_fits item hexport).2 item' hsame⟩

end Family

end DocExpr
