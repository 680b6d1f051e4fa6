import DocExpr.Proofs.ConditionMeaning
import DocExpr.Proofs.Fitting
import DocExpr.Proofs.Success

/-!
# The paths of a schema

Which paths there are is a matter of the schema alone.  `Family.Declares` says it by rules, one for
each way in which a path goes on, and `Family.Refuses` names the first segment that no rule takes,
with the error that reports it.  A list of segments is either declared or refused.

Resolving a path agrees with the two relations in every context of a program.  The walk through the
schema goes by places and the rules by declarations, so the walk is compared with the rules first;
what comes after the walk, binding the names and writing the path with their placeholders, cannot
fail where codes can be minted.

## Main definitions

* `Declared`: what a schema declares about a place inside an item
* `Family.Declares`, `Family.Refuses`: the paths of a schema, and the first fault of the others
* `Path.Refused`: the error of a path that is no path of a schema

## Main results

* `Family.declares_or_refuses`: every list of segments is declared or refused
* `Family.Declares.walk_eq`, `Family.Refuses.walk_eq`: the walk takes the declared segments
* `Path.resolve_succeeds`, `Path.runOn_resolve_refused`: the runs of `Path.resolve`
* `Path.resolves_iff_declared`: resolving accepts exactly the paths of the schema
-/

namespace DocExpr

variable {n : Nat} {family : Family n} {of : Fin n}

/-! ## The rules of a schema -/

/-- What a schema declares about a place inside an item. -/
inductive Declared (n : Nat) where
  /-- The item itself, which keeps an entity. -/
  | item (of : Fin n)
  | field (declaration : Field n)
  /-- An element of a list of entities. -/
  | member (of : Fin n)
  /-- An element of a list of which no more is known than its name. -/
  | element (list : String)

/-- The entity that a field keeps. -/
def FieldKind.entity? : FieldKind n → Option (Fin n)
  | entity of => some of
  | scalar .. | entityList _ => none

namespace Declared

/-- The entity whose fields come next. -/
def entity? : Declared n → Option (Fin n)
  | item of | member of => some of
  | field declaration => declaration.kind.entity?
  | element _ => none

/-- The type of the values at a place, where one is declared. -/
def type? : Declared n → Option AttributeType
  | item _ | element _ => none
  | field declaration => some declaration.kind.attributeType
  | member _ => some .map

/-- An ordinal may follow a list, and an element about which nothing is known. -/
def HasElements : Declared n → Prop
  | item _ | member _ => False
  | field declaration => declaration.kind.attributeType = .list
  | element _ => True

/-- What encloses the fields of a place: the entity there, or else the last field on the way. -/
def owner (family : Family n) : Declared n → String
  | item of | member of => (family of).entity
  | field declaration =>
    match declaration.kind.entity? with
    | some of => (family of).entity
    | none => declaration.name
  | element list => list

end Declared

namespace Family

/-- The paths of a schema, from an item that keeps an entity: a name is that of a declared field,
and an ordinal follows a list or an element about which nothing is known. -/
inductive Declares (family : Family n) (of : Fin n) : List Segment → Declared n → Prop
  | item : Declares family of [] (.item of)
  | field {steps : List Segment} {declared : Declared n} {entity : Fin n} {field : Field n} :
    Declares family of steps declared → declared.entity? = some entity →
      field ∈ (family entity).fields →
      Declares family of (steps ++ [.field field.name]) (.field field)
  | member {steps : List Segment} {field : Field n} {entity : Fin n} (ordinal : Nat) :
    Declares family of steps (.field field) → field.kind = .entityList entity →
      Declares family of (steps ++ [.index ordinal]) (.member entity)
  | element {steps : List Segment} {field : Field n} {type : ScalarType} {optional : Bool}
    (ordinal : Nat) :
    Declares family of steps (.field field) → field.kind = .scalar type optional →
      type.attributeType = .list →
      Declares family of (steps ++ [.index ordinal]) (.element field.name)
  | inner {steps : List Segment} {list : String} (ordinal : Nat) :
    Declares family of steps (.element list) →
      Declares family of (steps ++ [.index ordinal]) (.element list)

/-- The first segment that is not declared, and the error that reports it.  `literal` is the whole
path, for messages. -/
inductive Refuses (family : Family n) (of : Fin n) (literal : String) :
    List Segment → ExpressionError → Prop
  | field {steps : List Segment} {declared : Declared n} {name : String} (rest : List Segment) :
    Declares family of steps declared →
      (∀ entity, declared.entity? = some entity →
        ∀ field ∈ (family entity).fields, field.name ≠ name) →
      Refuses family of literal (steps ++ .field name :: rest)
        (.unknownField name (declared.owner family))
  | ordinal {steps : List Segment} {declared : Declared n} (ordinal : Nat) (rest : List Segment) :
    Declares family of steps declared → ¬declared.HasElements →
      Refuses family of literal (steps ++ .index ordinal :: rest)
        (.invalidPath (.elementOfNonList ordinal literal))

/-- Whether the first segment is a field of the key. -/
def StartsAtKey (family : Family n) (of : Fin n) (segments : List Segment) : Prop :=
  ∃ field ∈ (family of).fields, field.isKey = true ∧ segments.head? = some (.field field.name)

/-- A refused path stays refused, however it goes on. -/
theorem Refuses.append {literal : String} {steps : List Segment} {e : ExpressionError}
    (h : family.Refuses of literal steps e) (rest : List Segment) :
    family.Refuses of literal (steps ++ rest) e := by
  cases h with
  | field later hdeclares hnone =>
    rw [List.append_assoc]
    exact .field _ hdeclares hnone
  | ordinal k later hdeclares hlist =>
    rw [List.append_assoc]
    exact .ordinal _ _ hdeclares hlist

/-- What may have elements has the elements that the rules say. -/
theorem Declares.snoc_index {steps : List Segment} {declared : Declared n}
    (h : family.Declares of steps declared) (hlist : declared.HasElements) (ordinal : Nat) :
    ∃ element, family.Declares of (steps ++ [.index ordinal]) element := by
  cases declared with
  | item of' => exact hlist.elim
  | member of' => exact hlist.elim
  | element list => exact ⟨_, .inner ordinal h⟩
  | field field =>
    cases hkind : field.kind with
    | entityList entity => exact ⟨_, .member ordinal h hkind⟩
    | entity entity => rw [Declared.HasElements, hkind] at hlist; cases hlist
    | scalar type optional =>
      rw [Declared.HasElements, hkind] at hlist
      exact ⟨_, .element ordinal h hkind hlist⟩

/-- **Every list of segments is declared or refused.** -/
theorem declares_or_refuses (family : Family n) (of : Fin n) (literal : String)
    (segments : List Segment) :
    (∃ declared, family.Declares of segments declared) ∨
      ∃ e, family.Refuses of literal segments e := by
  -- The rules add segments at the end, so the induction does.
  induction segments using List.reverseRecOn with
  | nil => exact .inl ⟨_, .item⟩
  | append_singleton steps segment ih =>
    obtain ⟨declared, hdeclared⟩ | ⟨e, hrefused⟩ := ih
    · cases segment with
      | field name =>
        by_cases hfield : ∃ entity, declared.entity? = some entity ∧
            ∃ field ∈ (family entity).fields, field.name = name
        · obtain ⟨entity, hentity, field, hmem, rfl⟩ := hfield
          exact .inl ⟨_, .field hdeclared hentity hmem⟩
        · refine .inr ⟨_, .field [] hdeclared fun entity hentity field hmem hname => hfield ?_⟩
          exact ⟨entity, hentity, field, hmem, hname⟩
      | index ordinal =>
        by_cases hlist : declared.HasElements
        · exact .inl (hdeclared.snoc_index hlist ordinal)
        · exact .inr ⟨_, .ordinal ordinal [] hdeclared hlist⟩
    · exact .inr ⟨e, hrefused.append _⟩

end Family

/-! ## The walk takes the declared segments -/

namespace Declared

/-- What the walk keeps of a declaration. -/
def place : Declared n → Place n
  | item of => .root of
  | field declaration => .ofField declaration
  | member of => .entity of
  | element list => .inside list

theorem entity?_place (declared : Declared n) : declared.place.entity? = declared.entity? := by
  cases declared with
  | field field => obtain ⟨name, isKey, code, kind⟩ := field; cases kind <;> rfl
  | _ => rfl

theorem type?_place (declared : Declared n) : declared.place.type? = declared.type? := by
  cases declared with
  | field field => exact Place.type?_ofField field
  | _ => rfl

theorem owner_place (declared : Declared n) :
    declared.place.owner family = declared.owner family := by
  cases declared with
  | field field => obtain ⟨name, isKey, code, kind⟩ := field; cases kind <;> rfl
  | _ => rfl

/-- Places without elements, the item apart: no path goes on from it with an ordinal. -/
theorem element?_place {declared : Declared n} (hlist : ¬declared.HasElements)
    (hitem : ∀ of, declared ≠ .item of) : declared.place.element? family = none := by
  cases declared with
  | item of => exact (hitem of rfl).elim
  | member of => rfl
  | element list => exact (hlist trivial).elim
  | field field =>
    obtain ⟨name, isKey, code, kind⟩ := field
    cases kind with
    | entity of => rfl
    | entityList of => exact (hlist rfl).elim
    | scalar type optional =>
      cases type with
      | strings => exact (hlist rfl).elim
      | _ => rfl

end Declared

namespace Family

/-- A walk goes on from where its first part ended. -/
theorem walk_append (literal : String) (place : Place n) (steps rest : List Segment) :
    family.walk literal place (steps ++ rest) = (do
      let (fields, mid) ← family.walk literal place steps
      let (later, final) ← family.walk literal mid rest
      return (fields ++ later, final)) := by
  induction steps generalizing place with
  | nil => exact (bind_pure _).symm
  | cons segment steps ih =>
    cases segment with
    | field name =>
      rw [List.cons_append, walk, walk]
      split
      · rfl
      · rw [ih]
        simp
    | index ordinal =>
      rw [List.cons_append, walk, walk]
      split
      · rfl
      · exact ih _

section

variable {literal : String} {place mid : Place n} {steps : List Segment} {fields : List (Field n)}
  (h : family.walk literal place steps = .ok (fields, mid))

include h

/-- A walk goes on to a declared field. -/
theorem walk_snoc_field {entity : Fin n} {field : Field n} (hentity : mid.entity? = some entity)
    (hfield : field ∈ (family entity).fields) :
    family.walk literal place (steps ++ [.field field.name]) =
      .ok (fields ++ [field], .ofField field) := by
  have hfound := Registry.field?_eq_some_iff.mpr ⟨hfield, rfl⟩
  have hstep : family.walk literal mid [.field field.name] = .ok ([field], .ofField field) := by
    rw [walk, hentity, Option.bind_some, hfound]
    rfl
  rw [walk_append, h]
  show (do let (later, final) ← family.walk literal mid _; return (fields ++ later, final)) = _
  rw [hstep]
  rfl

/-- A walk goes on to the elements of a list. -/
theorem walk_snoc_index {element : Place n} (helement : mid.element? family = some element)
    (ordinal : Nat) :
    family.walk literal place (steps ++ [.index ordinal]) = .ok (fields, element) := by
  have hstep : family.walk literal mid [.index ordinal] = .ok ([], element) := by
    rw [walk, helement]
    rfl
  rw [walk_append, h]
  show (do let (later, final) ← family.walk literal mid _; return (fields ++ later, final)) = _
  rw [hstep]
  show Except.ok (fields ++ [], element) = _
  rw [List.append_nil]

/-- A walk ends at the first segment that is not taken. -/
theorem walk_append_error {segment : Segment} {e : ExpressionError} {rest : List Segment}
    (herror : family.walk literal mid (segment :: rest) = .error e) :
    family.walk literal place (steps ++ segment :: rest) = .error e := by
  rw [walk_append, h]
  show (do let (later, final) ← family.walk literal mid _; return (fields ++ later, final)) = _
  rw [herror]
  rfl

end

/-- **The walk takes every declared segment.** -/
theorem Declares.walk_eq {segments : List Segment} {declared : Declared n}
    (h : family.Declares of segments declared) (literal : String) :
    ∃ fields, family.walk literal (.root of) segments = .ok (fields, declared.place) := by
  induction h with
  | item => exact ⟨[], rfl⟩
  | @field _ declared _ field _ hentity hfield ih =>
    obtain ⟨fields, ih⟩ := ih
    exact ⟨_, walk_snoc_field ih (declared.entity?_place ▸ hentity) hfield⟩
  | @member _ field entity ordinal _ hkind ih =>
    obtain ⟨fields, ih⟩ := ih
    refine ⟨_, walk_snoc_index ih ?_ ordinal⟩
    rw [Declared.place, Place.ofField, hkind]
    rfl
  | @element _ field type optional ordinal _ hkind htype ih =>
    obtain ⟨fields, ih⟩ := ih
    refine ⟨_, walk_snoc_index ih ?_ ordinal⟩
    rw [Declared.place, Place.ofField, hkind]
    dsimp only
    rw [htype]
    rfl
  | inner ordinal _ ih =>
    obtain ⟨fields, ih⟩ := ih
    exact ⟨_, walk_snoc_index ih rfl ordinal⟩

/-- The rules tell one type at most, since the walk ends at one place. -/
theorem Declares.type?_eq {segments : List Segment} {declared other : Declared n}
    (h : family.Declares of segments declared) (h' : family.Declares of segments other) :
    declared.type? = other.type? := by
  obtain ⟨fields, hwalk⟩ := h.walk_eq ""
  obtain ⟨fields', hwalk'⟩ := h'.walk_eq ""
  rw [hwalk] at hwalk'
  rw [← declared.type?_place, ← other.type?_place, (Prod.mk.inj (Except.ok.inj hwalk')).2]

/-- Only the item itself is at the end of no segments. -/
theorem Declares.eq_nil_of_item {segments : List Segment} {entity : Fin n}
    (h : family.Declares of segments (.item entity)) : segments = [] := by
  cases h
  rfl

/-- **The walk refuses what the rules refuse**, unless it starts with an ordinal. -/
theorem Refuses.walk_eq {literal : String} {segments : List Segment} {e : ExpressionError}
    (h : family.Refuses of literal segments e)
    (hfirst : ∀ ordinal rest, segments ≠ .index ordinal :: rest) :
    family.walk literal (.root of) segments = .error e := by
  cases h with
  | @field steps declared name rest hdeclared hnone =>
    obtain ⟨fields, hwalk⟩ := hdeclared.walk_eq literal
    refine walk_append_error hwalk ?_
    -- No entity at the place declares a field of the name.
    have hfield : (declared.place.entity?.bind fun of => (family of).field? name) = none := by
      rw [declared.entity?_place]
      refine Option.bind_eq_none_iff.mpr fun entity hentity => ?_
      refine Option.eq_none_iff_forall_ne_some.mpr fun found hfound => ?_
      obtain ⟨hmem, hname⟩ := Registry.field?_eq_some_iff.mp hfound
      exact hnone entity hentity found hmem hname
    rw [walk, hfield, declared.owner_place]
  | @ordinal steps declared ordinal rest hdeclared hlist =>
    obtain ⟨fields, hwalk⟩ := hdeclared.walk_eq literal
    refine walk_append_error hwalk ?_
    -- Only the item is an exception of the walk, and no ordinal follows it directly.
    have hitem : ∀ entity, declared ≠ .item entity := by
      rintro entity rfl
      obtain rfl := hdeclared.eq_nil_of_item
      exact hfirst ordinal rest rfl
    rw [walk, Declared.element?_place hlist hitem]

end Family

/-! ## Paths that have no literal form -/

/-- Why segments are not the path of any text: there are none, or an ordinal has no text before
it. -/
inductive Unwritable : List Segment → PathFault → Prop
  | root : Unwritable [] .bareRoot
  | ordinal {steps : List Segment} (ordinal : Nat) (rest : List Segment) :
    (∀ step ∈ steps, step = .field "") →
      Unwritable (steps ++ .index ordinal :: rest) (.elementOfNothing ordinal)

theorem Unwritable.eq_bareRoot {fault : PathFault} (h : Unwritable [] fault) :
    fault = .bareRoot := by
  generalize hnil : [] = segments at h
  cases h with
  | root => rfl
  | ordinal ordinal rest hsteps => simp at hnil

namespace Path

/-- Behind a text every segment can be written. -/
theorem renderSegments_succeeds {nameOf : String → Except ExpressionError String}
    {segments : List Segment}
    (hname : ∀ name ∈ segments.filterMap Segment.name?, ∃ text, nameOf name = .ok text)
    {written : String} (hne : written ≠ "") :
    ∃ text, renderSegments nameOf written segments = .ok text := by
  induction segments generalizing written with
  | nil => exact ⟨written, rfl⟩
  | cons segment rest ih =>
    cases segment with
    | field name =>
      obtain ⟨⟨text, htext⟩, hrest⟩ := List.forall_mem_cons.mp
        (show ∀ x ∈ name :: rest.filterMap Segment.name?, ∃ text, nameOf x = .ok text from hname)
      rw [renderSegments_field htext, if_neg hne]
      exact ih hrest (by simp [String.append_eq_empty_iff])
    | index ordinal =>
      rw [renderSegments, if_neg hne]
      exact ih hname (by simp [String.append_eq_empty_iff])

/-- Writing fails at an ordinal that has only empty names before it. -/
theorem renderSegments_eq_error_iff {segments : List Segment} {e : ExpressionError} :
    renderSegments .ok "" segments = .error e ↔
      ∃ steps ordinal rest, segments = steps ++ .index ordinal :: rest ∧
        (∀ step ∈ steps, step = .field "") ∧ e = .invalidPath (.elementOfNothing ordinal) := by
  induction segments with
  | nil =>
    constructor
    · intro h
      cases h
    · rintro ⟨steps, ordinal, rest, hsegments, -⟩
      simp at hsegments
  | cons segment rest ih =>
    cases segment with
    | index ordinal =>
      rw [renderSegments, if_pos rfl]
      constructor
      · rintro ⟨⟩
        exact ⟨[], ordinal, rest, rfl, by simp, rfl⟩
      · rintro ⟨_ | ⟨step, steps⟩, ordinal', rest', hsegments, hsteps, rfl⟩
        · cases hsegments
          rfl
        · cases hsegments
          cases hsteps _ (List.mem_cons_self ..)
    | field name =>
      rw [renderSegments_field rfl, if_pos rfl]
      by_cases hname : name = ""
      · subst hname
        rw [ih]
        constructor
        · rintro ⟨steps, ordinal, rest, rfl, hsteps, rfl⟩
          exact ⟨.field "" :: steps, ordinal, rest, rfl, by simpa using hsteps, rfl⟩
        · rintro ⟨_ | ⟨step, steps⟩, ordinal, rest', hsegments, hsteps, rfl⟩
          · cases hsegments
          · cases hsegments
            exact ⟨steps, ordinal, rest', rfl, (List.forall_mem_cons.mp hsteps).2, rfl⟩
      · -- Behind a name that is not empty everything can be written.
        obtain ⟨text, htext⟩ : ∃ text, renderSegments .ok name rest = .ok text :=
          renderSegments_succeeds (fun later _ => ⟨later, rfl⟩) hname
        rw [htext]
        constructor
        · intro h
          cases h
        · rintro ⟨_ | ⟨step, steps⟩, ordinal, rest', hsegments, hsteps, rfl⟩
          · cases hsegments
          · cases hsegments
            exact absurd (Segment.field.inj (hsteps _ (List.mem_cons_self ..))) hname

/-- **A path has no literal form for one of two reasons.** -/
theorem literal_eq_error_iff {path : Path} {e : ExpressionError} :
    path.literal = .error e ↔ ∃ fault, Unwritable path.segments fault ∧ e = .invalidPath fault := by
  rw [literal, render]
  split
  · next hroot =>
    rw [(isRoot_iff path).mp hroot]
    constructor
    · rintro ⟨⟩
      exact ⟨_, .root, rfl⟩
    · rintro ⟨fault, hfault, rfl⟩
      rw [hfault.eq_bareRoot]
  · next hroot =>
    rw [isRoot_iff] at hroot
    rw [renderSegments_eq_error_iff]
    constructor
    · rintro ⟨steps, ordinal, rest, hsegments, hsteps, rfl⟩
      exact ⟨_, hsegments ▸ .ordinal ordinal rest hsteps, rfl⟩
    · rintro ⟨fault, hfault, rfl⟩
      generalize path.segments = segments at hroot hfault
      cases hfault with
      | root => exact absurd rfl hroot
      | ordinal ordinal rest hsteps => exact ⟨_, ordinal, rest, rfl, hsteps, rfl⟩

/-- A path that has a literal form starts at a name. -/
theorem exists_field_of_literal {path : Path} {literal : String} (h : path.literal = .ok literal) :
    ∃ name rest, path.segments = .field name :: rest := by
  cases hsegments : path.segments with
  | nil =>
    have hfault : Unwritable path.segments .bareRoot := hsegments ▸ .root
    rw [literal_eq_error_iff.mpr ⟨_, hfault, rfl⟩] at h
    cases h
  | cons segment rest =>
    cases segment with
    | field name => exact ⟨name, rest, rfl⟩
    | index ordinal =>
      have hfault : Unwritable ([] ++ .index ordinal :: rest) (.elementOfNothing ordinal) :=
        .ordinal ordinal rest (List.forall_mem_nil _)
      rw [List.nil_append, ← hsegments] at hfault
      rw [literal_eq_error_iff.mpr ⟨_, hfault, rfl⟩] at h
      cases h

end Path

/-! ## Resolving -/

/-- The error of a path that is no path of a schema: it has no literal form, or else some segment
is not declared. -/
inductive Path.Refused (family : Family n) (of : Fin n) (path : Path) : ExpressionError → Prop
  | unwritable {fault : PathFault} : Unwritable path.segments fault →
    Refused family of path (.invalidPath fault)
  | undeclared {literal : String} {e : ExpressionError} : path.literal = .ok literal →
    family.Refuses of literal path.segments e → Refused family of path e

/-- Whether the segments of a path are declared; the item itself has no path. -/
def Path.IsDeclared (family : Family n) (of : Fin n) (path : Path) : Prop :=
  path.segments ≠ [] ∧ ∃ declared, family.Declares of path.segments declared

/-- What a resolved path tells of itself is what the schema says. -/
structure ResolvedPath.Tells (family : Family n) (of : Fin n) (resolved : ResolvedPath) : Prop where
  declared : resolved.path.IsDeclared family of
  literal : resolved.path.literal = .ok resolved.literal
  type : ∀ declared, family.Declares of resolved.path.segments declared →
    resolved.type? = declared.type?
  key : resolved.rootIsKey = true ↔ family.StartsAtKey of resolved.path.segments

/-- Segments lead nowhere or start at a field of the entity. -/
theorem Family.Declares.item_or_first {segments : List Segment} {declared : Declared n}
    (h : family.Declares of segments declared) :
    (segments = [] ∧ declared = .item of) ∨
      ∃ field ∈ (family of).fields, ∃ rest, segments = .field field.name :: rest := by
  induction h with
  | item => exact .inl ⟨rfl, rfl⟩
  | @field _ _ _ field _ hentity hfield ih =>
    obtain ⟨rfl, rfl⟩ | ⟨first, hfirst, rest, rfl⟩ := ih
    · cases hentity
      exact .inr ⟨field, hfield, [], rfl⟩
    · exact .inr ⟨first, hfirst, _, rfl⟩
  | member _ _ _ ih | element _ _ _ _ ih | inner _ _ ih =>
    obtain ⟨-, ⟨⟩⟩ | ⟨first, hfirst, rest, rfl⟩ := ih
    exact .inr ⟨first, hfirst, _, rfl⟩

/-- A walk from the item starts at a field of its entity. -/
theorem Family.walk_root_eq_ok {literal name : String} {rest : List Segment}
    {fields : List (Field n)} {final : Place n}
    (h : family.walk literal (.root of) (.field name :: rest) = .ok (fields, final)) :
    ∃ field ∈ (family of).fields, field.name = name ∧ fields.head? = some field := by
  rw [walk] at h
  split at h
  · cases h
  · next field hfield =>
    obtain ⟨hmem, hname⟩ := Registry.field?_eq_some_iff.mp hfield
    obtain ⟨⟨later, last⟩, -, heq⟩ := Except.bind_eq_ok_iff.mp h
    cases heq
    exact ⟨field, hmem, hname, rfl⟩

/-- Whether the first segment is a field of the key is told by the declaration of that field. -/
theorem Family.startsAtKey_iff {field : Field n} (hfield : field ∈ (family of).fields)
    (rest : List Segment) :
    family.StartsAtKey of (.field field.name :: rest) ↔ field.isKey = true := by
  constructor
  · rintro ⟨other, hother, hkey, hhead⟩
    have hname : field.name = other.name := Segment.field.inj (Option.some.inj hhead)
    rwa [List.inj_on_of_nodup_map (family of).wellFormed.names_nodup hfield hother hname]
  · intro hkey
    exact ⟨field, hfield, hkey, rfl⟩

/-- A context of a program in which codes can be minted. -/
structure Context.Ready (ctx : Context) : Prop where
  sound : ctx.Sound
  usable : ctx.Usable

/-- Codes can be minted where the symbols are those of an alphabet. -/
theorem Context.usable_of_symbols {ctx : Context} {symbols : List Char}
    (h : (Alphabet.ofSymbols ctx.symbols).toOption.map Alphabet.symbols = some symbols) :
    ctx.Usable := by
  obtain ⟨alphabet, halphabet, -⟩ := Except.exists_of_toOption h
  exact ⟨alphabet, halphabet⟩

open Compile (Succeeds)
open Context (Ready Usable)

/-- Where codes can be minted, names can be bound. -/
theorem bindFields_succeeds (fields : List (Field n)) (names : Dict String) :
    Succeeds Usable (bindFields fields names) fun _ ctx => ctx.Usable := by
  induction fields generalizing names with
  | nil => exact (Succeeds.pure names).imp fun _ _ h => h.2
  | cons field rest ih =>
    have hname : Succeeds Usable (Compile.bindName field.name field.code) fun _ ctx => ctx.Usable :=
      .step fun ctx hctx => by
        obtain ⟨placeholder, ctx', hbind, -, hctx'⟩ := hctx.bindName field.name field.code
        exact ⟨placeholder, ctx', hbind, hctx'⟩
    exact hname.bind fun placeholder => ih (names.insert placeholder field.name)

namespace Path

variable {path : Path}

/-- A declared path has a literal form. -/
theorem IsDeclared.exists_literal (h : path.IsDeclared family of) :
    ∃ literal, path.literal = .ok literal := by
  cases hliteral : path.literal with
  | ok literal => exact ⟨literal, rfl⟩
  | error e =>
    obtain ⟨fault, hfault, -⟩ := literal_eq_error_iff.mp hliteral
    obtain ⟨hne, declared, hdeclared⟩ := h
    obtain ⟨hnil, -⟩ | ⟨field, hfield, rest, hfirst⟩ := hdeclared.item_or_first
    · exact absurd hnil hne
    · -- The path starts at a name that is not empty, so no ordinal has nothing before it.
      rw [hfirst] at hfault
      generalize hs : Segment.field field.name :: rest = segments at hfault
      cases hfault with
      | root => cases hs
      | @ordinal steps _ _ hsteps =>
        cases steps with
        | nil => cases hs
        | cons step steps =>
          have hname : field.name = "" := by
            rw [← Segment.field.injEq, ← hsteps step (List.mem_cons_self ..)]
            exact List.head_eq_of_cons_eq hs
          exact absurd hname ((family of).wellFormed.name_ne_empty field hfield)

/-- **A path is declared or refused.** -/
theorem isDeclared_or_refused (family : Family n) (of : Fin n) (path : Path) :
    path.IsDeclared family of ∨ ∃ e, path.Refused family of e := by
  cases hliteral : path.literal with
  | error e =>
    obtain ⟨fault, hfault, -⟩ := literal_eq_error_iff.mp hliteral
    exact .inr ⟨_, .unwritable hfault⟩
  | ok literal =>
    obtain ⟨name, rest, hfirst⟩ := exists_field_of_literal hliteral
    obtain hdeclared | ⟨e, hrefused⟩ := family.declares_or_refuses of literal path.segments
    · exact .inl ⟨by simp [hfirst], hdeclared⟩
    · exact .inr ⟨e, .undeclared hliteral hrefused⟩

/-- A refused path is found before anything is bound. -/
theorem runOn_resolve_refused {e : ExpressionError} (h : path.Refused family of e) (ctx : Context) :
    (path.resolve family of).runOn ctx = (.error e, ctx) := by
  unfold resolve
  rw [Compile.runOn_bind, Compile.runOn_ofExcept]
  cases h with
  | unwritable hfault => rw [literal_eq_error_iff.mpr ⟨_, hfault, rfl⟩]
  | @undeclared literal _ hliteral hrefused =>
    obtain ⟨name, rest, hfirst⟩ := exists_field_of_literal hliteral
    rw [hliteral]
    dsimp only
    rw [Compile.runOn_bind, Compile.runOn_ofExcept,
      hrefused.walk_eq fun ordinal rest => by simp [hfirst]]

/-- A path whose names are bound can be written with their placeholders. -/
theorem exists_withNames {ctx : Context} (hctx : ctx.Sound) {name : String} {rest : List Segment}
    (hfirst : path.segments = .field name :: rest)
    (hbound : ∀ name ∈ path.segments.filterMap Segment.name?,
      ∃ placeholder, ctx.names.get? name = some placeholder) :
    ∃ text, path.withNames ctx.names = .ok text := by
  have hroot : ¬path.isRoot = true := by simp [isRoot_iff, hfirst]
  rw [hfirst] at hbound
  obtain ⟨⟨placeholder, hname⟩, hrest⟩ := List.forall_mem_cons.mp
    (show ∀ x ∈ name :: rest.filterMap Segment.name?, ∃ placeholder, _ = some placeholder from
      hbound)
  have hplaceholder : IsName placeholder := hctx.formed.name hctx.linked hname
  rw [withNames, render, if_neg hroot, hfirst, renderSegments_field (by rw [hname]), if_pos rfl]
  refine renderSegments_succeeds (fun later hlater => ?_) hplaceholder.isReference.ne_empty
  obtain ⟨other, hother⟩ := hrest later hlater
  exact ⟨other, by rw [hother]⟩

/-- **A declared path resolves** where codes can be minted, to what the schema says. -/
theorem resolve_succeeds (h : path.IsDeclared family of) :
    Succeeds Ready (path.resolve family of) fun resolved ctx =>
      (resolved.path = path ∧ resolved.Tells family of) ∧ ctx.Ready := by
  rintro ctx ⟨hsound, husable⟩
  obtain ⟨literal, hliteral⟩ := h.exists_literal
  obtain ⟨name, rest, hfirst⟩ := exists_field_of_literal hliteral
  obtain ⟨hne, declared, hdeclared⟩ := h
  obtain ⟨fields, hwalk⟩ := hdeclared.walk_eq literal
  obtain ⟨hnames, howned⟩ := Family.map_name_walk hwalk
  -- The names are bound, and the context stays as it has to be.
  obtain ⟨names, mid, hbind, hmid⟩ := bindFields_succeeds fields ∅ ctx husable
  have hspec := bindFields_spec Context.stable_sound fields (fun field hfield =>
    Family.isToken_code (howned field hfield).choose_spec) ∅
  have hsound' : mid.Sound := by
    have hkeeps := hspec.keeps hsound
    rwa [hbind] at hkeeps
  obtain ⟨text, htext⟩ : ∃ text, path.withNames mid.names = .ok text := by
    refine exists_withNames hsound' hfirst fun name hname => ?_
    rw [← hnames] at hname
    obtain ⟨field, hfield, rfl⟩ := List.mem_map.mp hname
    exact (hspec.result hsound hbind).1 field hfield
  refine ⟨⟨path, { text, names }, literal, declared.place.type?,
    (fields.head?.map Field.isKey).getD false⟩, mid, ?_,
    ⟨rfl, ⟨hne, declared, hdeclared⟩, hliteral, ?_, ?_⟩, ⟨hsound', hmid⟩⟩
  · unfold resolve
    rw [Compile.runOn_bind_eq_ok_iff]
    refine ⟨literal, ctx, by rw [hliteral]; rfl, Compile.runOn_bind_eq_ok_iff.mpr
      ⟨(fields, declared.place), ctx, by rw [hwalk]; rfl, ?_⟩⟩
    refine Compile.runOn_bind_eq_ok_iff.mpr ⟨names, mid, hbind, ?_⟩
    refine Compile.runOn_bind_eq_ok_iff.mpr ⟨mid, mid, rfl, ?_⟩
    exact Compile.runOn_bind_eq_ok_iff.mpr ⟨text, mid, by rw [htext]; rfl, rfl⟩
  · intro other hother
    rw [declared.type?_place, hdeclared.type?_eq hother]
  · rw [hfirst] at hwalk
    obtain ⟨field, hfield, rfl, hhead⟩ := Family.walk_root_eq_ok hwalk
    rw [hhead]
    show field.isKey = true ↔ family.StartsAtKey of path.segments
    rw [hfirst, Family.startsAtKey_iff hfield]

/-- **Resolving accepts exactly the paths of the schema.**  In any reached context in which codes
can be minted, a path resolves just if its segments are declared; it then tells the declared type of
the place and whether it starts at the key.  Otherwise the error is that of the first fault, and the
context stays as it was. -/
theorem resolves_iff_declared (family : Family n) (of : Fin n) (path : Path) {ctx : Context}
    (hctx : ctx.Reached) (husable : ctx.Usable) :
    ((∃ resolved ctx', (path.resolve family of).runOn ctx = (.ok resolved, ctx')) ↔
      path.IsDeclared family of) ∧
    (∀ resolved ctx', (path.resolve family of).runOn ctx = (.ok resolved, ctx') →
      (∀ declared, family.Declares of path.segments declared →
        resolved.type? = declared.type?) ∧
      (resolved.rootIsKey = true ↔ family.StartsAtKey of path.segments)) ∧
    ∀ e ctx', (path.resolve family of).runOn ctx = (.error e, ctx') ↔
      path.Refused family of e ∧ ctx' = ctx := by
  obtain hdeclared | ⟨e, hrefused⟩ := path.isDeclared_or_refused family of
  · obtain ⟨resolved, ctx', hrun, ⟨rfl, htells⟩, -⟩ :=
      resolve_succeeds hdeclared ctx ⟨hctx.sound, husable⟩
    refine ⟨iff_of_true ⟨resolved, ctx', hrun⟩ hdeclared, ?_, fun e after => ?_⟩
    · rintro _ _ h
      cases hrun.symm.trans h
      exact ⟨htells.type, htells.key⟩
    · -- A refused path fails, and this one succeeds.
      rw [hrun]
      refine iff_of_false (by simp) ?_
      rintro ⟨hrefused, -⟩
      rw [runOn_resolve_refused hrefused] at hrun
      cases hrun
  · have hrun := runOn_resolve_refused hrefused ctx
    refine ⟨iff_of_false ?_ ?_, ?_, fun e' after => ?_⟩
    · rintro ⟨resolved, ctx', h⟩
      rw [hrun] at h
      cases h
    · intro hdeclared
      obtain ⟨resolved, ctx', h, -⟩ := resolve_succeeds hdeclared ctx ⟨hctx.sound, husable⟩
      rw [hrun] at h
      cases h
    · rintro resolved ctx' h
      rw [hrun] at h
      cases h
    · constructor
      · intro h
        cases hrun.symm.trans h
        exact ⟨hrefused, rfl⟩
      · rintro ⟨hrefused', rfl⟩
        exact runOn_resolve_refused hrefused' after

/-- A book on the shelf above has a binding, but no elements. -/
theorem resolves_iff_declared_books :
    let ctx := (((ofName "label").resolve shelves 0).runOn (.fresh "AB")).2
    let book := ((ofName "above").field "books").aliasOf.element 3
    (∃ resolved ctx', (((book.field "binding").field "material").resolve shelves 0).runOn ctx =
      (.ok resolved, ctx') ∧ resolved.type? = some .string ∧ resolved.rootIsKey = false) ∧
    (((book.element 0).field "title").resolve shelves 0).runOn ctx =
      (.error (.invalidPath (.elementOfNonList 0 "above.books[3][0].title")), ctx) := by
  intro ctx book
  have hctx : ctx.Reached := .path shelves 0 (ofName "label") (.fresh "AB")
  have hsymbols : (Alphabet.ofSymbols ctx.symbols).toOption.map Alphabet.symbols =
      some ['A', 'B'] := by
    decide +kernel
  have husable : ctx.Usable := Context.usable_of_symbols hsymbols
  have habove : (⟨"above", false, none, .entity 0⟩ : Field 3) ∈ (shelves 0).fields := by decide
  have hbooks : (⟨"books", false, none, .entityList 1⟩ : Field 3) ∈ (shelves 0).fields := by decide
  have hbook : shelves.Declares 0 book.segments (.member 1) :=
    ((Family.Declares.item.field rfl habove).field rfl hbooks).member 3 rfl
  constructor
  · have hbinding : (⟨"binding", false, none, .entity 2⟩ : Field 3) ∈ (shelves 1).fields := by
      decide
    have hmaterial : (⟨"material", false, none, .scalar .string false⟩ : Field 3) ∈
        (shelves 2).fields := by decide
    have hdeclared := (hbook.field rfl hbinding).field rfl hmaterial
    obtain ⟨hiff, htells, -⟩ := resolves_iff_declared shelves 0
      ((book.field "binding").field "material") hctx husable
    obtain ⟨resolved, ctx', hrun⟩ := hiff.mpr ⟨by decide, _, hdeclared⟩
    obtain ⟨htype, hkey⟩ := htells resolved ctx' hrun
    refine ⟨resolved, ctx', hrun, htype _ hdeclared, ?_⟩
    -- The path starts at the shelf above, which is not the key.
    rw [Bool.eq_false_iff, ne_eq, hkey]
    intro hstart
    cases (Family.startsAtKey_iff habove _).mp hstart
  · obtain ⟨-, -, hfails⟩ := resolves_iff_declared shelves 0 ((book.element 0).field "title") hctx
      husable
    have hliteral : ((book.element 0).field "title").literal =
        .ok "above.books[3][0].title" := by decide +kernel
    exact (hfails _ _).mpr
      ⟨.undeclared hliteral (.ordinal 0 [.field "title"] hbook not_false), rfl⟩

end Path

end DocExpr
