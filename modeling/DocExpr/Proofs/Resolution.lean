import DocExpr.Proofs.Leaves
import DocExpr.Proofs.Run

/-!
# What resolving binds

A resolved path is bound in the context it was resolved in, and in every later one: its text is that
of the path with the placeholders of the context, and its names are exactly those placeholders.  The
values of a resolved condition or statement were all minted on the way, one for each occurrence, so
no two share a placeholder and none was there before.

Both facts go through a whole tree from left to right, since a context only ever learns.

## Main definitions

* `ResolvedPath.BoundIn`: the text and the names of a path are those that a context gives
* `Minted`: values with placeholders of their own, new since an earlier context
* `Resolved`: the paths and the values of a tree that was resolved between two contexts

## Main results

* `Family.map_name_walk`: the declarations along a path have the names of the path
* `Path.resolve_spec`, `Condition.resolve_spec`, `resolveExpr_spec`, `Statement.resolve_spec`: what
  was resolved is the source, and its leaves are `Resolved`
-/

namespace DocExpr

variable {n : Nat} {family : Family n} {of : Fin n} {I : Context → Prop}

/-! ## Paths -/

/-- The name in a step of a path. -/
def Segment.name? : Segment → Option String
  | .field name => some name
  | .index _ => none

theorem Path.fieldNames_eq (path : Path) :
    path.fieldNames = path.segments.filterMap Segment.name? := by
  unfold Path.fieldNames
  congr 1

/-- The declarations along a path have the names of the path, and each belongs to an entity. -/
theorem Family.map_name_walk {literal : String} {place final : Place n} {segments : List Segment}
    {fields : List (Field n)} (h : family.walk literal place segments = .ok (fields, final)) :
    fields.map Field.name = segments.filterMap Segment.name? ∧
      ∀ field ∈ fields, ∃ of, field ∈ (family of).fields := by
  induction segments generalizing place fields with
  | nil =>
    cases h
    exact ⟨rfl, by simp⟩
  | cons segment rest ih =>
    cases segment with
    | field name =>
      rw [Family.walk] at h
      split at h
      · cases h
      · next field hfield =>
        obtain ⟨of, -, hof⟩ := Option.bind_eq_some_iff.mp hfield
        cases hrest : family.walk literal (.ofField field) rest with
        | error e => rw [hrest] at h; cases h
        | ok pair =>
          obtain ⟨later, last⟩ := pair
          rw [hrest] at h
          cases h
          obtain ⟨hnames, howned⟩ := ih hrest
          have hname : field.name = name := by simpa using List.find?_some hof
          refine ⟨?_, List.forall_mem_cons.mpr ⟨⟨of, List.mem_of_find?_eq_some hof⟩, howned⟩⟩
          rw [List.map_cons, hnames, hname]
          rfl
    | index ordinal =>
      -- An ordinal goes on to the elements and declares nothing.
      rw [Family.walk] at h
      split at h
      · cases h
      · next element _ => exact ih h

/-- The short codes of the fields of a family are tokens. -/
theorem Family.isToken_code {field : Field n} (h : field ∈ (family of).fields) :
    ∀ token ∈ field.code, isToken token := by
  intro token htoken
  exact (family of).wellFormed.isToken_code token (List.mem_filterMap.mpr ⟨field, h, htoken⟩)

/-- The placeholders of some fields, each with its field. -/
def owning (names : Dict String) (fields : List String) : List (String × String) :=
  fields.filterMap fun field => (names.get? field).map fun placeholder => (placeholder, field)

/-- Adds the placeholders of some fields to a dictionary. -/
def insertOwning (names : Dict String) (fields : List String) (d : Dict String) : Dict String :=
  (owning names fields).foldl (fun acc entry => acc.insert entry.1 entry.2) d

theorem insertOwning_cons {names : Dict String} {field placeholder : String}
    (h : names.get? field = some placeholder) (fields : List String) (d : Dict String) :
    insertOwning names (field :: fields) d =
      insertOwning names fields (d.insert placeholder field) := by
  rw [insertOwning, owning, List.filterMap_cons, h]
  rfl

/-- The text and the names of a path are those that a context gives. -/
structure ResolvedPath.BoundIn (resolved : ResolvedPath) (ctx : Context) : Prop where
  literal : resolved.path.literal = .ok resolved.literal
  named : "" ∉ resolved.path.fieldNames
  bound : ∀ field ∈ resolved.path.fieldNames, ∃ placeholder,
    ctx.names.get? field = some placeholder
  names : resolved.fragment.names = insertOwning ctx.names resolved.path.fieldNames ∅
  values : resolved.fragment.values = ∅
  text : resolved.path.withNames ctx.names = .ok resolved.fragment.text

theorem Path.renderSegments_field {nameOf : String → Except ExpressionError String}
    {name text : String} (h : nameOf name = .ok text) (written : String) (rest : List Segment) :
    renderSegments nameOf written (.field name :: rest) =
      renderSegments nameOf (if written = "" then text else written ++ "." ++ text) rest := by
  rw [renderSegments, h]
  rfl

/-- Names that are written alike make the same text. -/
theorem Path.renderSegments_congr {nameOf nameOf' : String → Except ExpressionError String}
    {segments : List Segment}
    (h : ∀ name ∈ segments.filterMap Segment.name?, nameOf name = nameOf' name)
    (written : String) :
    renderSegments nameOf written segments = renderSegments nameOf' written segments := by
  induction segments generalizing written with
  | nil => rfl
  | cons segment rest ih =>
    cases segment with
    | field name =>
      obtain ⟨hname, hrest⟩ := List.forall_mem_cons.mp
        (show ∀ x ∈ name :: rest.filterMap Segment.name?, nameOf x = nameOf' x from h)
      rw [renderSegments, renderSegments, hname]
      cases nameOf' name with
      | error e => rfl
      | ok text => exact ih hrest _
    | index ordinal =>
      rw [renderSegments, renderSegments]
      split
      · rfl
      · exact ih h _

/-- A path that is bound stays bound. -/
theorem ResolvedPath.BoundIn.mono {resolved : ResolvedPath} {ctx ctx' : Context}
    (h : resolved.BoundIn ctx) (hle : ctx ≤ ctx') : resolved.BoundIn ctx' := by
  -- The fields of the path are bound, and what is bound is not bound anew.
  have hsame : ∀ field ∈ resolved.path.fieldNames,
      ctx'.names.get? field = ctx.names.get? field := by
    intro field hfield
    obtain ⟨placeholder, hbound⟩ := h.bound field hfield
    rw [hbound, hle.names hbound]
  refine ⟨h.literal, h.named, fun field hfield => ?_, ?_, h.values, ?_⟩
  · rw [hsame field hfield]
    exact h.bound field hfield
  · rw [h.names, insertOwning, insertOwning, owning, owning]
    congr 1
    exact List.filterMap_congr fun field hfield => by rw [hsame field hfield]
  · rw [← h.text, Path.withNames, Path.withNames, Path.render, Path.render]
    split
    · rfl
    · refine Path.renderSegments_congr (fun name hname => ?_) _
      rw [hsame name (by rwa [Path.fieldNames_eq])]

open Compile (Spec)

variable (hI : Context.Stable I)

include hI

theorem bindFields_spec (fields : List (Field n))
    (hcode : ∀ field ∈ fields, ∀ token ∈ field.code, isToken token) (names : Dict String) :
    Spec I (bindFields fields names) fun _ names' ctx' =>
      (∀ field ∈ fields, ∃ placeholder, ctx'.names.get? field.name = some placeholder) ∧
        names' = insertOwning ctx'.names (fields.map Field.name) names := by
  induction fields generalizing names with
  | nil =>
    refine (Spec.pure names).imp ?_
    rintro ctx a ctx' - - - ⟨rfl, rfl⟩
    exact ⟨by simp, rfl⟩
  | cons field rest ih =>
    obtain ⟨hfield, hrest⟩ := List.forall_mem_cons.mp hcode
    refine ((Spec.bindName hI hfield).bind fun placeholder _ =>
      ih hrest (names.insert placeholder field.name)).imp ?_
    rintro ctx names' ctx' - - - ⟨placeholder, mid, hbound, -, -, hle, hall, rfl⟩
    refine ⟨List.forall_mem_cons.mpr ⟨⟨placeholder, hle.names hbound⟩, hall⟩, ?_⟩
    rw [List.map_cons, insertOwning_cons (hle.names hbound)]

/-- **A path that resolves is bound.** -/
theorem Path.resolve_spec (path : Path) :
    Spec I (path.resolve family of) fun _ resolved ctx' =>
      resolved.path = path ∧ resolved.BoundIn ctx' := by
  unfold Path.resolve
  refine ((Spec.ofExcept path.literal).bind fun literal hliteral =>
    (Spec.ofExcept (family.walk literal (.root of) path.segments)).bind fun pair hpair =>
      (bindFields_spec hI pair.1 ?_ ∅).bind fun names _ =>
        Spec.get.bind fun ctx _ =>
          (Spec.ofExcept (path.withNames ctx.names)).bind fun text _ =>
            Spec.pure _).imp ?_
  · -- The fields that are bound are declared, so their codes are tokens.
    obtain ⟨ctx, mid, hwalk, -⟩ := hpair
    intro field hfield
    obtain ⟨owner, howner⟩ := (Family.map_name_walk hwalk).2 field hfield
    exact Family.isToken_code howner
  · rintro ctx resolved ctx' - - -
      ⟨literal, _, ⟨hliteral, rfl⟩, -, -, -, ⟨fields, place⟩, _, ⟨hwalk, rfl⟩, -, -, -,
        names, bound, ⟨hall, rfl⟩, -, -, -, _, _, ⟨rfl, rfl⟩, -, -, -,
        text, _, ⟨htext, rfl⟩, -, -, -, rfl, rfl⟩
    have hnames : fields.map Field.name = path.fieldNames := by
      rw [(Family.map_name_walk hwalk).1, Path.fieldNames_eq]
    refine ⟨rfl, hliteral, ?_, ?_, ?_, rfl, htext⟩
    · -- A declared field has a name that is not empty.
      intro hempty
      have hmem : "" ∈ fields.map Field.name := hnames ▸ hempty
      obtain ⟨declared, hdeclared, hname⟩ := List.mem_map.mp hmem
      obtain ⟨owner, howner⟩ := (Family.map_name_walk hwalk).2 declared hdeclared
      exact (family owner).wellFormed.name_ne_empty declared howner hname
    · intro field hfield
      have hmem : field ∈ fields.map Field.name := hnames ▸ hfield
      obtain ⟨declared, hdeclared, rfl⟩ := List.mem_map.mp hmem
      exact hall declared hdeclared
    · rw [hnames]

omit hI

/-! ## Values -/

/-- Values with placeholders of their own in the second context, which the first has not. -/
structure Minted (ctx : Context) (values : List BoundValue) (ctx' : Context) : Prop where
  nodup : (values.map BoundValue.placeholder).Nodup
  fresh : ∀ value ∈ values, value.placeholder ∉ ctx.values.keys
  bound : ∀ value ∈ values, ctx'.values.get? value.placeholder = some value.value

namespace Minted

variable {ctx mid ctx' : Context} {values values' : List BoundValue}

theorem nil (ctx ctx' : Context) : Minted ctx [] ctx' := ⟨List.nodup_nil, by simp, by simp⟩

/-- What was minted later is new with respect to what was minted before. -/
theorem append (h : Minted ctx values mid) (h' : Minted mid values' ctx') (hle : ctx ≤ mid)
    (hle' : mid ≤ ctx') : Minted ctx (values ++ values') ctx' := by
  refine ⟨?_, fun value hv => ?_, fun value hv => ?_⟩
  · rw [List.map_append]
    refine List.nodup_append.mpr ⟨h.nodup, h'.nodup, ?_⟩
    -- An earlier placeholder is bound in the middle, where a later one is still free.
    rintro p hp p' hp' rfl
    obtain ⟨value, hvalue, rfl⟩ := List.mem_map.mp hp
    obtain ⟨value', hvalue', heq⟩ := List.mem_map.mp hp'
    apply h'.fresh value' hvalue'
    rw [heq]
    exact Dict.mem_keys_of_get? (h.bound value hvalue)
  · rcases List.mem_append.mp hv with hv | hv
    · exact h.fresh value hv
    · intro hmem
      obtain ⟨old, hold⟩ := (Dict.mem_keys_iff ..).mp hmem
      exact h'.fresh value hv (Dict.mem_keys_of_get? (hle.values hold))
  · rcases List.mem_append.mp hv with hv | hv
    · exact hle'.values (h.bound value hv)
    · exact h'.bound value hv

end Minted

/-- The paths and the values of a tree that was resolved between two contexts. -/
structure Resolved (ctx : Context) (paths : List ResolvedPath) (values : List BoundValue)
    (ctx' : Context) : Prop where
  paths : ∀ path ∈ paths, path.BoundIn ctx'
  minted : Minted ctx values ctx'

namespace Resolved

variable {ctx mid ctx' : Context} {paths paths' : List ResolvedPath}
  {values values' : List BoundValue}

theorem nil (ctx ctx' : Context) : Resolved ctx [] [] ctx' := ⟨by simp, .nil ctx ctx'⟩

theorem path {path : ResolvedPath} (h : path.BoundIn ctx') : Resolved ctx [path] [] ctx' :=
  ⟨by simpa using h, .nil ctx ctx'⟩

/-- What was resolved first, then what was resolved next. -/
theorem append (h : Resolved ctx paths values mid) (h' : Resolved mid paths' values' ctx')
    (hle : ctx ≤ mid) (hle' : mid ≤ ctx') :
    Resolved ctx (paths ++ paths') (values ++ values') ctx' := by
  refine ⟨fun path hp => ?_, h.minted.append h'.minted hle hle'⟩
  rcases List.mem_append.mp hp with hp | hp
  · exact (h.paths path hp).mono hle'
  · exact h'.paths path hp

/-- What was resolved between two contexts, seen from an earlier and a later one. -/
theorem widen {before after : Context} (h : Resolved ctx paths values ctx') (hle : before ≤ ctx)
    (hle' : ctx' ≤ after) : Resolved before paths values after := by
  refine ⟨fun path hp => (h.paths path hp).mono hle', h.minted.nodup, fun value hv hmem => ?_,
    fun value hv => hle'.values (h.minted.bound value hv)⟩
  obtain ⟨old, hold⟩ := (Dict.mem_keys_iff ..).mp hmem
  exact h.minted.fresh value hv (Dict.mem_keys_of_get? (hle.values hold))

end Resolved

/-- What a computation that binds one value yields. -/
def BindsValue (value : AttributeValue) (ctx : Context) (bound : BoundValue) (ctx' : Context) :
    Prop :=
  bound.value = value ∧ Resolved ctx [] [bound] ctx'

include hI

theorem bindValue_spec (value : AttributeValue) :
    Spec I (Compile.bindValue value) (BindsValue value) := by
  refine (Spec.bindValue hI value).imp ?_
  rintro ctx bound ctx' - - - ⟨rfl, hfresh, hbound⟩
  exact ⟨rfl, by simp, ⟨by simp, by simpa using hfresh, by simpa using hbound⟩⟩

theorem ResolvedPath.bindOperand_spec (path : ResolvedPath) (value : AttributeValue) :
    Spec I (path.bindOperand value) (BindsValue value) := by
  unfold ResolvedPath.bindOperand
  split
  · exact bindValue_spec hI value
  · refine Spec.ite (fun _ => bindValue_spec hI value) fun _ => ?_
    exact (Spec.throw _).imp fun _ _ _ h => h.elim

/-- Values that are bound one after the other. -/
theorem mapM_bindOperand_spec (path : ResolvedPath) (values : List AttributeValue) :
    Spec I (values.mapM path.bindOperand) fun ctx bound ctx' =>
      bound.map BoundValue.value = values ∧ Resolved ctx [] bound ctx' := by
  refine Spec.mapM (P := fun ctx values bound ctx' =>
    bound.map BoundValue.value = values ∧ Resolved ctx [] bound ctx')
    (fun ctx => ⟨rfl, .nil ctx ctx⟩) ?_ values fun value _ => path.bindOperand_spec hI value
  rintro ctx mid ctx' _ first rest bound ⟨rfl, hfirst⟩ hle hle' ⟨rfl, hrest⟩
  exact ⟨rfl, hfirst.append hrest hle hle'⟩

/-! ## Conditions -/

/-- A path, then a value beside it. -/
theorem beside_spec {bind : ResolvedPath → AttributeValue → Compile BoundValue}
    (hbind : ∀ path value, Spec I (bind path value) (BindsValue value)) (path : Path)
    (value : AttributeValue) (build : ResolvedPath → BoundValue → ResolvedCondition) :
    Spec I (do
      let path ← path.resolve family of
      let value ← bind path value
      return build path value) fun ctx result ctx' => ∃ resolved bound,
        result = build resolved bound ∧ resolved.path = path ∧ bound.value = value ∧
          Resolved ctx [resolved] [bound] ctx' := by
  refine ((path.resolve_spec hI).bind fun resolved _ =>
    (hbind resolved value).bind fun _ _ => Spec.pure _).imp ?_
  rintro ctx _ ctx' - - - ⟨resolved, mid, ⟨hpath, hbound⟩, -, hle, -, bound, _, ⟨hvalue, hminted⟩,
    -, hle', -, rfl, rfl⟩
  exact ⟨resolved, bound, rfl, hpath, hvalue, (Resolved.path hbound).append hminted hle hle'⟩

omit hI

namespace Condition

open ConditionTree

mutual

/-- **A condition that resolves keeps its source, and its leaves are resolved.** -/
theorem resolve_spec (hI : Context.Stable I) : ∀ condition : Condition,
    (∀ text ∈ condition.fixedTexts, Context.Admits I text) →
    Spec I (condition.resolve family of) fun ctx resolved ctx' =>
      resolved.source = condition ∧ Resolved ctx resolved.paths resolved.literals ctx'
  | .fixed text names values, hfixed => by
    have htext : Context.Admits I ⟨text, names, values⟩ := hfixed _ (by simp [fixedTexts])
    have hnames : ∀ entry ∈ names.entries,
        Spec I (Compile.reserveName entry.1 entry.2) fun _ _ _ => True := fun entry hentry =>
      (Spec.reserveName htext (List.mem_map_of_mem hentry) entry.2).imp fun _ _ _ _ => trivial
    have hvalues : ∀ entry ∈ values.entries,
        Spec I (Compile.reserveValue entry.1 entry.2) fun _ _ _ => True := fun entry hentry =>
      (Spec.reserveValue htext (List.mem_map_of_mem hentry) entry.2).imp fun _ _ _ _ => trivial
    rw [resolve]
    -- A text of the caller is reserved as it is and has no leaves.
    refine ((Spec.forM names.entries _ (fun _ => id) hnames).bind fun _ _ =>
      (Spec.forM values.entries _ (fun _ => id) hvalues).bind fun _ _ => Spec.pure _).imp ?_
    rintro ctx _ ctx' - - - ⟨-, -, -, -, -, -, -, -, -, -, -, -, rfl, rfl⟩
    exact ⟨rfl, .nil ctx ctx'⟩
  | .existence path expected, _ => by
    rw [resolve]
    refine ((path.resolve_spec hI).bind fun _ _ => Spec.pure _).imp ?_
    rintro ctx _ ctx' - - - ⟨path, _, ⟨rfl, hpath⟩, -, -, -, rfl, rfl⟩
    exact ⟨rfl, .path hpath⟩
  | .hasType path tag, _ => by
    rw [resolve]
    refine (beside_spec hI (fun _ => bindValue_spec hI) path tag .hasType).imp ?_
    rintro ctx _ ctx' - - - ⟨path, tag, rfl, rfl, rfl, h⟩
    exact ⟨rfl, h⟩
  | .compare path comparison operand, _ => by
    rw [resolve]
    refine (beside_spec hI (ResolvedPath.bindOperand_spec hI) path operand
      fun path operand => .compare path comparison operand).imp ?_
    rintro ctx _ ctx' - - - ⟨path, operand, rfl, rfl, rfl, h⟩
    exact ⟨rfl, h⟩
  | .compareField path comparison other, _ => by
    rw [resolve]
    refine ((path.resolve_spec hI).bind fun _ _ =>
      (other.resolve_spec hI).bind fun _ _ => Spec.pure _).imp ?_
    rintro ctx _ ctx' - - - ⟨path, mid, ⟨rfl, hpath⟩, -, hle, -, other, _, ⟨rfl, hother⟩, -,
      hle', -, rfl, rfl⟩
    exact ⟨rfl, (Resolved.path hpath).append (Resolved.path hother) hle hle'⟩
  | .between path low high, _ => by
    rw [resolve]
    refine ((path.resolve_spec hI).bind fun resolved _ =>
      (resolved.bindOperand_spec hI low).bind fun _ _ =>
        (resolved.bindOperand_spec hI high).bind fun _ _ => Spec.pure _).imp ?_
    rintro ctx _ ctx' - - - ⟨path, mid, ⟨rfl, hpath⟩, -, hle, hup, low, mid', ⟨rfl, hlow⟩, -, hle',
      -, high, _, ⟨rfl, hhigh⟩, -, hle'', -, rfl, rfl⟩
    exact ⟨rfl, (Resolved.path hpath).append (hlow.append hhigh hle' hle'') hle hup⟩
  | .beginsWith path start, _ => by
    rw [resolve]
    refine (beside_spec hI (ResolvedPath.bindOperand_spec hI) path start .beginsWith).imp ?_
    rintro ctx _ ctx' - - - ⟨path, start, rfl, rfl, rfl, h⟩
    exact ⟨rfl, h⟩
  | .contains path operand, _ => by
    rw [resolve]
    refine (beside_spec hI (fun _ => bindValue_spec hI) path operand .contains).imp ?_
    rintro ctx _ ctx' - - - ⟨path, operand, rfl, rfl, rfl, h⟩
    exact ⟨rfl, h⟩
  | .oneOf path candidates, _ => by
    rw [resolve]
    refine Spec.ite (fun _ => Spec.throw_bind _ _) fun _ => ?_
    refine ((path.resolve_spec hI).bind fun resolved _ =>
      (mapM_bindOperand_spec hI resolved candidates).bind fun _ _ => Spec.pure _).imp ?_
    rintro ctx _ ctx' - - - ⟨path, mid, ⟨rfl, hpath⟩, -, hle, -, bound, _, ⟨rfl, hbound⟩, -,
      hle', -, rfl, rfl⟩
    exact ⟨rfl, (Resolved.path hpath).append hbound hle hle'⟩
  | .group connective operands, hfixed => by
    rw [resolve]
    refine Spec.ite (fun _ => Spec.throw_bind _ _) fun _ => ?_
    refine ((resolveAll_spec hI operands hfixed).bind fun _ _ => Spec.pure _).imp ?_
    rintro ctx _ ctx' - - - ⟨resolved, _, ⟨hsource, hresolved⟩, -, -, -, rfl, rfl⟩
    exact ⟨congrArg (group connective) hsource, hresolved⟩
  | .not operand, hfixed => by
    rw [resolve]
    refine ((resolve_spec hI operand hfixed).bind fun _ _ => Spec.pure _).imp ?_
    rintro ctx _ ctx' - - - ⟨resolved, _, ⟨hsource, hresolved⟩, -, -, -, rfl, rfl⟩
    exact ⟨congrArg ConditionTree.not hsource, hresolved⟩

theorem resolveAll_spec (hI : Context.Stable I) : ∀ conditions : List Condition,
    (∀ text ∈ fixedTextsOfAll conditions, Context.Admits I text) →
    Spec I (resolveAll family of conditions) fun ctx resolved ctx' =>
      mapAll ResolvedPath.path BoundValue.value resolved = conditions ∧
        Resolved ctx (pathsOfAll resolved) (literalsOfAll resolved) ctx'
  | [], _ => by
    rw [resolveAll]
    refine (Spec.pure []).imp ?_
    rintro ctx _ ctx' - - - ⟨rfl, rfl⟩
    exact ⟨rfl, .nil ctx' ctx'⟩
  | condition :: rest, hfixed => by
    obtain ⟨hfirst, hrest⟩ := List.forall_mem_append.mp hfixed
    rw [resolveAll]
    refine ((resolve_spec hI condition hfirst).bind fun _ _ =>
      (resolveAll_spec hI rest hrest).bind fun _ _ => Spec.pure _).imp ?_
    rintro ctx _ ctx' - - - ⟨first, mid, ⟨hsource, hfirst⟩, -, hle, -, rest, _, ⟨rfl, hrest⟩, -,
      hle', -, rfl, rfl⟩
    exact ⟨congrArg (· :: _) hsource, hfirst.append hrest hle hle'⟩

end

end Condition

/-! ## Statements -/

include hI

/-- A value expression that resolves keeps its source, and its leaves are resolved. -/
theorem resolveExpr_spec {bind : AttributeValue → Compile BoundValue}
    (hbind : ∀ value, Spec I (bind value) (BindsValue value))
    (expr : ValueExpr Path AttributeValue) :
    Spec I (resolveExpr family of bind expr) fun ctx resolved ctx' =>
      ResolvedExpr.source resolved = expr ∧ Resolved ctx resolved.paths resolved.literals ctx' := by
  induction expr generalizing bind with
  | constant value =>
    rw [resolveExpr]
    refine ((hbind value).bind fun _ _ => Spec.pure _).imp ?_
    rintro ctx _ ctx' - - - ⟨bound, _, ⟨rfl, hbound⟩, -, -, -, rfl, rfl⟩
    exact ⟨rfl, hbound⟩
  | path path =>
    rw [resolveExpr]
    refine ((path.resolve_spec hI).bind fun _ _ => Spec.pure _).imp ?_
    rintro ctx _ ctx' - - - ⟨path, _, ⟨rfl, hpath⟩, -, -, -, rfl, rfl⟩
    exact ⟨rfl, .path hpath⟩
  | arithmetic left op right ihl ihr =>
    rw [resolveExpr]
    refine ((ihl (bindValue_spec hI)).bind fun _ _ =>
      (ihr (bindValue_spec hI)).bind fun _ _ => Spec.pure _).imp ?_
    rintro ctx _ ctx' - - - ⟨left, mid, ⟨rfl, hleft⟩, -, hle, -, right, _, ⟨rfl, hright⟩, -, hle',
      -, rfl, rfl⟩
    exact ⟨rfl, hleft.append hright hle hle'⟩
  | listAppend head tail ihh iht =>
    rw [resolveExpr]
    refine ((ihh (bindValue_spec hI)).bind fun _ _ =>
      (iht (bindValue_spec hI)).bind fun _ _ => Spec.pure _).imp ?_
    rintro ctx _ ctx' - - - ⟨head, mid, ⟨rfl, hhead⟩, -, hle, -, tail, _, ⟨rfl, htail⟩, -, hle',
      -, rfl, rfl⟩
    exact ⟨rfl, hhead.append htail hle hle'⟩

/-- A value expression, and the statement that it makes with a target. -/
theorem carried_spec {bind : AttributeValue → Compile BoundValue}
    (hbind : ∀ value, Spec I (bind value) (BindsValue value)) (expr : ValueExpr Path AttributeValue)
    (build : ResolvedExpr → Action ResolvedPath BoundValue) (target : ResolvedPath) :
    Spec I (do
      let value ← resolveExpr family of bind expr
      let action ← pure (build value)
      return (⟨target, action⟩ : ResolvedStatement)) fun ctx result ctx' => ∃ value,
        result = ⟨target, build value⟩ ∧ ResolvedExpr.source value = expr ∧
          Resolved ctx value.paths value.literals ctx' := by
  refine ((resolveExpr_spec hI hbind expr).bind fun value _ =>
    (Spec.pure (build value)).bind fun _ _ => Spec.pure _).imp ?_
  rintro ctx _ ctx' - - - ⟨value, _, ⟨hsource, hresolved⟩, -, -, -, _, _, ⟨rfl, rfl⟩, -, -, -,
    rfl, rfl⟩
  exact ⟨value, rfl, hsource, hresolved⟩

/-- **A statement that resolves keeps its source, and its leaves are resolved.** -/
theorem Statement.resolve_spec (statement : Statement) :
    Spec I (statement.resolve family of) fun ctx resolved ctx' =>
      resolved.source = statement ∧ Resolved ctx resolved.paths resolved.literals ctx' := by
  obtain ⟨target, action⟩ := statement
  unfold Statement.resolve
  cases action with
  | set expr overwrite =>
    refine ((target.resolve_spec hI).bind fun resolved _ =>
      Spec.ite (fun _ => Spec.throw_bind _ _) fun _ =>
        carried_spec hI (resolved.bindOperand_spec hI) expr (.set · overwrite) resolved).imp ?_
    rintro ctx _ ctx' - - - ⟨target, mid, ⟨rfl, htarget⟩, -, hle, hle', value, rfl, rfl, hvalue⟩
    exact ⟨rfl, (Resolved.path htarget).append hvalue hle hle'⟩
  | add expr =>
    refine ((target.resolve_spec hI).bind fun resolved _ =>
      Spec.ite (fun _ => Spec.throw_bind _ _) fun _ =>
        carried_spec hI (bindValue_spec hI) expr .add resolved).imp ?_
    rintro ctx _ ctx' - - - ⟨target, mid, ⟨rfl, htarget⟩, -, hle, hle', value, rfl, rfl, hvalue⟩
    exact ⟨rfl, (Resolved.path htarget).append hvalue hle hle'⟩
  | remove =>
    refine ((target.resolve_spec hI).bind fun resolved _ =>
      Spec.ite (fun _ => Spec.throw_bind _ _) fun _ =>
        (Spec.pure Action.remove).bind fun _ _ => Spec.pure _).imp ?_
    rintro ctx _ ctx' - - - ⟨target, mid, ⟨rfl, htarget⟩, -, -, -, _, _, ⟨rfl, rfl⟩, -, -, -,
      rfl, rfl⟩
    exact ⟨rfl, .path htarget⟩
  | delete expr =>
    refine ((target.resolve_spec hI).bind fun resolved _ =>
      Spec.ite (fun _ => Spec.throw_bind _ _) fun _ =>
        carried_spec hI (bindValue_spec hI) expr .delete resolved).imp ?_
    rintro ctx _ ctx' - - - ⟨target, mid, ⟨rfl, htarget⟩, -, hle, hle', value, rfl, rfl, hvalue⟩
    exact ⟨rfl, (Resolved.path htarget).append hvalue hle hle'⟩

/-- Statements that are resolved one after the other. -/
theorem resolveStatements_spec (statements : List Statement) :
    Spec I (statements.mapM (Statement.resolve family of)) fun ctx resolved ctx' =>
      resolved.map ResolvedStatement.source = statements ∧
        Resolved ctx (resolved.flatMap StatementOn.paths) (resolved.flatMap StatementOn.literals)
          ctx' := by
  refine Spec.mapM (P := fun ctx statements resolved ctx' =>
    resolved.map ResolvedStatement.source = statements ∧
      Resolved ctx (resolved.flatMap StatementOn.paths) (resolved.flatMap StatementOn.literals)
        ctx')
    (fun ctx => ⟨rfl, .nil ctx ctx⟩) ?_ statements fun statement _ => statement.resolve_spec hI
  rintro ctx mid ctx' _ first rest resolved ⟨rfl, hfirst⟩ hle hle' ⟨rfl, hrest⟩
  rw [List.flatMap_cons, List.flatMap_cons]
  exact ⟨rfl, hfirst.append hrest hle hle'⟩

/-- Paths that are resolved one after the other. -/
theorem resolvePaths_spec (paths : List Path) :
    Spec I (paths.mapM (Path.resolve family of)) fun ctx resolved ctx' =>
      resolved.map ResolvedPath.path = paths ∧ Resolved ctx resolved [] ctx' := by
  refine Spec.mapM (P := fun ctx paths resolved ctx' =>
    resolved.map ResolvedPath.path = paths ∧ Resolved ctx resolved [] ctx')
    (fun ctx => ⟨rfl, .nil ctx ctx⟩) ?_ paths fun path _ => path.resolve_spec hI
  rintro ctx mid ctx' _ first rest resolved ⟨rfl, hfirst⟩ hle hle' ⟨rfl, hrest⟩
  exact ⟨rfl, (Resolved.path hfirst).append hrest hle hle'⟩

/-! ## Updates -/

/-- A condition that compiles was resolved. -/
theorem Condition.compile_spec (condition : Condition)
    (hfixed : ∀ text ∈ condition.fixedTexts, Context.Admits I text) :
    Spec I (condition.compile family of) fun ctx fragment ctx' => ∃ resolved : ResolvedCondition,
      fragment = resolved.fragment ∧ resolved.source = condition ∧
        Resolved ctx resolved.paths resolved.literals ctx' := by
  unfold Condition.compile
  refine ((condition.resolve_spec hI hfixed).bind fun _ _ => Spec.pure _).imp ?_
  rintro ctx _ ctx' - - - ⟨resolved, _, ⟨hsource, hresolved⟩, -, -, -, rfl, rfl⟩
  exact ⟨resolved, rfl, hsource, hresolved⟩

/-- An optional condition is left out or resolved. -/
theorem compileCondition?_spec (condition? : Option Condition)
    (hfixed : ∀ condition ∈ condition?, ∀ text ∈ condition.fixedTexts, Context.Admits I text) :
    Spec I (compileCondition? family of condition?) fun ctx fragment? ctx' =>
      ∃ resolved? : Option ResolvedCondition,
        fragment? = resolved?.map ResolvedCondition.fragment ∧
          resolved?.map ResolvedCondition.source = condition? ∧
          ∀ resolved ∈ resolved?, Resolved ctx resolved.paths resolved.literals ctx' := by
  cases condition? with
  | none =>
    rw [compileCondition?]
    refine (Spec.pure none).imp ?_
    rintro ctx _ ctx' - - - ⟨rfl, -⟩
    exact ⟨none, rfl, rfl, nofun⟩
  | some condition =>
    rw [compileCondition?]
    refine ((condition.compile_spec hI (hfixed condition rfl)).bind fun _ _ => Spec.pure _).imp ?_
    rintro ctx _ ctx' - - - ⟨_, _, ⟨resolved, rfl, hsource, hresolved⟩, -, -, -, rfl, rfl⟩
    exact ⟨some resolved, rfl, congrArg some hsource, by rintro _ ⟨⟩; exact hresolved⟩

/-- **An update that compiles was resolved statement by statement**, and its condition after it. -/
theorem Update.compile_spec (update : Update) (condition? : Option Condition)
    (hfixed : ∀ condition ∈ condition?, ∀ text ∈ condition.fixedTexts, Context.Admits I text) :
    Spec I (update.compile family of condition?) fun ctx compiled ctx' =>
      ∃ (statements : List ResolvedStatement) (resolved? : Option ResolvedCondition),
        compiled = ⟨updateFragment? (survivors statements),
          resolved?.map ResolvedCondition.fragment⟩ ∧
        statements.map ResolvedStatement.source = update ∧
        resolved?.map ResolvedCondition.source = condition? ∧
        Resolved ctx (statements.flatMap StatementOn.paths)
          (statements.flatMap StatementOn.literals) ctx' ∧
        ∀ resolved ∈ resolved?, Resolved ctx resolved.paths resolved.literals ctx' := by
  unfold Update.compile
  refine ((resolveStatements_spec hI update).bind fun _ _ =>
    (compileCondition?_spec hI condition? hfixed).bind fun _ _ => Spec.pure _).imp ?_
  rintro ctx _ ctx' - - - ⟨statements, mid, ⟨hsource, hresolved⟩, -, hle, hle', _, _,
    ⟨resolved?, rfl, hcondition, hall⟩, -, -, -, rfl, rfl⟩
  -- The statements are seen from the end, the condition from the beginning.
  refine ⟨statements, resolved?, rfl, hsource, hcondition, hresolved.widen le_rfl hle', ?_⟩
  intro resolved hmem
  exact (hall resolved hmem).widen hle le_rfl

end DocExpr
