import DocExpr.Proofs.Export
import DocExpr.Proofs.Run
import DocExpr.Path.Resolve

/-!
# The schema tells the types of what is stored

A path is walked twice: through the schema when it is resolved, and through an item when a store
looks for the attribute that it names.  Both walks take the same steps, so what the schema says of a
place holds of every value that an exported item has there.  Inside a list of scalars the schema
says nothing, and there is nothing to hold.

## Main definitions

* `AttributeValue.follow?`: the value at the end of a path through a value
* `Place.Describes`: what the schema says of the values at a place

## Main results

* `Place.describes_kept`, `Place.describes_element`: one step through the schema and the value
* `Family.describes_walk`: all steps of a path
* `Path.resolve_tells_type`: a value that is found by a path has the type that the path was resolved
  with, and an operand beside the path is null or of the type of that value
-/

namespace DocExpr

variable {n : Nat} {family : Family n}

/-- The value at the end of some steps: a name leads to an entry of a map, and an ordinal to an item
of a list. -/
def AttributeValue.follow? : List Segment → AttributeValue → Option AttributeValue
  | [], value => some value
  | .field name :: rest, .map entries => (Entries.get? entries name).bind (follow? rest)
  | .index ordinal :: rest, .list items => items[ordinal]?.bind (follow? rest)
  | _ :: _, _ => none

namespace Place

/-- What the schema says of the values at a place. -/
def Describes (family : Family n) : Place n → AttributeValue → Prop
  | root of, value | entity of, value =>
    ∃ record : Record, record.Fits family of ∧ value = .map (keptEntries family of record)
  | entityList _ of, value =>
    ∃ elements : List Record, (∀ record ∈ elements, record.Fits family of) ∧
      value = .list (keptElements family of elements)
  | scalar _ type, value => value.type = type
  | inside _, _ => True

variable {place : Place n} {value : AttributeValue}

/-- The type of a place is that of the values there. -/
theorem Describes.type_eq (h : place.Describes family value) {type : AttributeType}
    (htype : place.type? = some type) : value.type = type := by
  cases place with
  | root of => cases htype
  | entity of =>
    obtain ⟨record, -, rfl⟩ := h
    exact Option.some.inj htype
  | entityList name of =>
    obtain ⟨elements, -, rfl⟩ := h
    exact Option.some.inj htype
  | scalar name type' => exact h.trans (Option.some.inj htype)
  | inside owner => cases htype

/-- What is kept of a field is described by the place of the field. -/
theorem describes_kept {field : Field n} {value : FieldValue} {kept : AttributeValue}
    (h : value.Fits family field.kind) (hkept : value.kept? family field.kind = some kept) :
    (ofField field).Describes family kept := by
  have htype := h.type_kept hkept
  rw [ofField]
  cases hkind : field.kind with
  | scalar type optional =>
    rw [hkind] at htype
    exact htype
  | entity of =>
    rw [hkind] at h hkept
    cases value with
    | absent => simp [FieldValue.kept?] at hkept
    | entity fields => exact ⟨fields, h, (Option.some.inj hkept).symm⟩
    | _ => exact h.elim
  | entityList of =>
    rw [hkind] at h hkept
    cases value with
    | absent => simp [FieldValue.kept?] at hkept
    | entities elements => exact ⟨elements, elementsFit_iff.mp h, (Option.some.inj hkept).symm⟩
    | _ => exact h.elim

/-- An entry of a map is described by the place of its field. -/
theorem Describes.field {entries : Entries AttributeValue}
    (h : place.Describes family (.map entries)) {name : String} {field : Field n}
    (hfield : (place.entity?.bind fun of => (family of).field? name) = some field)
    {kept : AttributeValue} (hkept : entries.get? name = some kept) :
    (ofField field).Describes family kept := by
  obtain ⟨of, hentity, hfield⟩ := Option.bind_eq_some_iff.mp hfield
  -- Only two places have the fields of an entity, and both keep a record of it.
  have hrecord : ∃ record : Record, record.Fits family of ∧
      AttributeValue.map entries = .map (keptEntries family of record) := by
    cases place <;> cases hentity <;> exact h
  obtain ⟨record, hfits, heq⟩ := hrecord
  obtain rfl := AttributeValue.map.inj heq
  obtain ⟨value, -, field', hfield', hvalue, hkept⟩ :=
    hfits.exists_of_mem_kept (Entries.mem_of_get? hkept)
  obtain rfl : field' = field := Option.some.inj (hfield'.symm.trans hfield)
  exact describes_kept hvalue hkept

/-- An item of a list is described by the place of the elements. -/
theorem Describes.element {items : List AttributeValue}
    (h : place.Describes family (.list items)) {element : Place n}
    (helement : place.element? family = some element) {item : AttributeValue}
    (hitem : item ∈ items) :
    element.Describes family item := by
  cases place with
  | entityList name of =>
    obtain ⟨elements, hfits, heq⟩ := h
    obtain rfl := Option.some.inj helement
    rw [AttributeValue.list.inj heq, keptElements_eq] at hitem
    obtain ⟨record, hrecord, rfl⟩ := List.mem_map.mp hitem
    exact ⟨record, hfits record hrecord, rfl⟩
  | root of =>
    -- Items of what is no list of entities are not declared, so they may be anything.
    obtain rfl := Option.some.inj helement
    trivial
  | entity of => cases helement
  | scalar name type =>
    cases type with
    | list =>
      obtain rfl := Option.some.inj helement
      trivial
    | _ => cases helement
  | inside owner =>
    obtain rfl := Option.some.inj helement
    trivial

end Place

/-- **What the schema says of the end of a path holds of the value there.** -/
theorem Family.describes_walk {literal : String} {place final : Place n} {segments : List Segment}
    {fields : List (Field n)} (hwalk : family.walk literal place segments = .ok (fields, final))
    {value reached : AttributeValue} (h : place.Describes family value)
    (hfollow : value.follow? segments = some reached) : final.Describes family reached := by
  -- The walk and the value go down together, one segment at a time.
  induction segments generalizing place value fields with
  | nil =>
    cases hwalk
    exact Option.some.inj hfollow ▸ h
  | cons segment rest ih =>
    cases segment with
    | field name =>
      rw [Family.walk] at hwalk
      split at hwalk
      · cases hwalk
      · next field hfield =>
        obtain ⟨⟨later, last⟩, hrest, heq⟩ := Except.bind_eq_ok_iff.mp hwalk
        cases heq
        cases value with
        | map entries =>
          obtain ⟨kept, hkept, hfollow⟩ := Option.bind_eq_some_iff.mp hfollow
          exact ih hrest (h.field hfield hkept) hfollow
        | _ => cases hfollow
    | index ordinal =>
      rw [Family.walk] at hwalk
      split at hwalk
      · cases hwalk
      · next element helement =>
        cases value with
        | list items =>
          obtain ⟨item, hitem, hfollow⟩ := Option.bind_eq_some_iff.mp hfollow
          exact ih hwalk (h.element helement (List.mem_of_getElem? hitem)) hfollow
        | _ => cases hfollow

/-- What a resolved path tells of itself: its literal form, and what the walk takes from the
schema. -/
theorem Path.walk_of_resolve {of : Fin n} {path : Path} {ctx ctx' : Context}
    {resolved : ResolvedPath} (h : (path.resolve family of).runOn ctx = (.ok resolved, ctx')) :
    path.literal = .ok resolved.literal ∧
      ∃ fields place, family.walk resolved.literal (.root of) path.segments = .ok (fields, place) ∧
        resolved.type? = place.type? ∧
          resolved.rootIsKey = (fields.head?.map Field.isKey).getD false := by
  simp only [Path.resolve, Compile.runOn_bind_eq_ok_iff, Compile.runOn_ofExcept,
    Compile.runOn_pure, Prod.mk.injEq] at h
  obtain ⟨literal, _, ⟨hliteral, -⟩, ⟨fields, place⟩, _, ⟨hwalk, -⟩, hrest⟩ := h
  obtain ⟨names, _, -, _, _, -, text, _, -, heq, -⟩ := hrest
  cases heq
  exact ⟨hliteral, fields, place, hwalk, rfl, rfl⟩

/-- An operand that is accepted is null or of the type of the path. -/
theorem ResolvedPath.type_of_bindOperand {path : ResolvedPath} {type : AttributeType}
    (htype : path.type? = some type) {literal : AttributeValue} {ctx ctx' : Context}
    {bound : BoundValue} (h : (path.bindOperand literal).runOn ctx = (.ok bound, ctx')) :
    literal.isNull = true ∨ literal.type = type := by
  simp only [ResolvedPath.bindOperand, htype] at h
  split at h
  · next haccepted => simpa using haccepted
  · cases h

/-- **A value that is found by a path has the type that the path was resolved with**, and an operand
that is accepted beside the path is null or of the type of that value. -/
theorem Path.resolve_tells_type (family : Family n) (of : Fin n) (record : Record)
    (h : record.Fits family of) (item : Item) (hexport : family.exportItem of record = .ok item)
    (path : Path) (ctx ctx' : Context) (resolved : ResolvedPath)
    (hresolve : (path.resolve family of).runOn ctx = (.ok resolved, ctx')) (type : AttributeType)
    (htype : resolved.type? = some type) (value : AttributeValue)
    (hfollow : (AttributeValue.ofItem item).follow? path.segments = some value) :
    value.type = type ∧ ∀ (literal : AttributeValue) (before after : Context) (bound : BoundValue),
      (resolved.bindOperand literal).runOn before = (.ok bound, after) →
        literal.isNull = true ∨ literal.type = value.type := by
  obtain ⟨-, fields, place, hwalk, hplace, -⟩ := Path.walk_of_resolve hresolve
  have hitem : (Place.root of).Describes family (.ofItem item) :=
    ⟨record, h, congrArg AttributeValue.map (h.exportItem_eq_ok_iff.mp hexport).1⟩
  have hvalue : value.type = type :=
    (family.describes_walk hwalk hitem hfollow).type_eq (hplace ▸ htype)
  refine ⟨hvalue, fun literal before after bound hbind => ?_⟩
  rw [hvalue]
  exact ResolvedPath.type_of_bindOperand htype hbind

/-- The weight of the first book on the shelf. -/
theorem Path.resolve_tells_type_weight :
    let path := ((Path.ofName "books").element 0).field "weight"
    ∃ item value resolved ctx, shelves.exportItem 0 shelf = .ok item ∧
      (AttributeValue.ofItem item).follow? path.segments = some value ∧
      (path.resolve shelves 0).runOn (.fresh "AB") = (.ok resolved, ctx) ∧
      resolved.type? = some .number ∧ value.type = .number ∧
      ∀ (literal : AttributeValue) (before after : Context) (bound : BoundValue),
        (resolved.bindOperand literal).runOn before = (.ok bound, after) →
          literal.isNull = true ∨ literal.type = value.type := by
  intro path
  have hfound : (shelves.exportItem 0 shelf).toOption.map (fun item =>
      ((AttributeValue.ofItem item).follow? path.segments).isSome) = some true := by
    decide +kernel
  have htype : ((path.resolve shelves 0).runOn (.fresh "AB")).1.toOption.map ResolvedPath.type? =
      some (some .number) := by
    decide +kernel
  obtain ⟨resolved, ctx, hresolve, htype⟩ := Compile.exists_of_toOption htype
  obtain ⟨item, hexport, hfound⟩ := Except.exists_of_toOption hfound
  obtain ⟨value, hfollow⟩ := Option.isSome_iff_exists.mp hfound
  obtain ⟨hvalue, hoperand⟩ := path.resolve_tells_type shelves 0 shelf shelf_fits item hexport
    (.fresh "AB") ctx resolved hresolve .number htype value hfollow
  exact ⟨item, value, resolved, ctx, hexport, hfollow, hresolve, htype, hvalue, hoperand⟩

end DocExpr
