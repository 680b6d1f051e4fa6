import DocExpr.Proofs.Expressions

/-!
# Where the placeholders of a request come from

The dictionaries of a request are merged from those of its parts, and a reader of the request does
not see from which part an entry is.  There are no more than three: a field on a path, a literal and
a text of the caller.  So each placeholder that a request declares is declared by a text of the
caller, or the compiler gave it to a field or a literal that the request prints.

A placeholder that was reserved for a field counts as the caller's, also where the field then stands
on a path.  All others have the form of minted ones.

## Main definitions

* `Context.Sourced`: placeholders are of that form or come from some texts
* `Table.Call.fixedTexts`: the texts that a caller wrote for an operation
* `Table.Call.GivesName`, `Table.Call.GivesValue`: what the compiler gives a placeholder to

## Main results

* `Table.Call.traced_of_run`: the leaves that a request gathers, and the context they are bound in
* `Table.Call.name_origin`, `Table.Call.value_origin`: where the keys of a request come from
-/

namespace DocExpr

/-! ## Contexts and their texts -/

namespace Context

/-- Each placeholder has the form of minted ones or comes from some texts. -/
structure Sourced (texts : List Fragment) (ctx : Context) : Prop where
  linked : ctx.Linked
  formed : ctx.Formed
    (fun placeholder => IsName placeholder ∨ ∃ text ∈ texts, placeholder ∈ text.names.keys)
    (fun placeholder => IsValue placeholder ∨ ∃ text ∈ texts, placeholder ∈ text.values.keys)

variable {texts : List Fragment}

theorem sourced_fresh (texts : List Fragment) (alphabet : String) :
    (fresh alphabet).Sourced texts :=
  ⟨nofun, ⟨nofun, nofun⟩⟩

theorem stable_sourced (texts : List Fragment) : Stable (Sourced texts) where
  linked h := h.linked
  bindName h hcode hbind :=
    ⟨Linked.bindName h.linked hbind,
      h.formed.bindName (fun token htoken => .inl ⟨token, htoken, rfl⟩) hcode hbind⟩
  bindValue h hbind :=
    ⟨Linked.bindValue h.linked hbind,
      h.formed.bindValue (fun token htoken => .inl ⟨token, htoken, rfl⟩) hbind⟩

theorem admits_sourced {text : Fragment} (h : text ∈ texts) : Admits (Sourced texts) text where
  reserveName hctx hp hreserve :=
    ⟨Linked.reserveName hctx.linked hreserve,
      hctx.formed.reserveName (.inr ⟨text, h, hp⟩) hreserve⟩
  reserveValue hctx hp hreserve :=
    ⟨Linked.reserveValue hctx.linked hreserve,
      hctx.formed.reserveValue (.inr ⟨text, h, hp⟩) hreserve⟩

end Context

/-! ## Requests and their parts -/

namespace Table.Call

variable {n : Nat}

/-- The texts that a caller wrote for an operation. -/
def fixedTexts (call : Call) : List Fragment := call.conditions.flatMap ConditionTree.fixedTexts

/-- Statements and paths have no texts of the caller. -/
theorem fixedTexts_parts (table : Table n) (call : Call) :
    (call.parts table).flatMap Part.fixedTexts = call.fixedTexts := by
  have hpaths : ∀ paths : List Path,
      (paths.map Part.path : List SourcePart).flatMap Part.fixedTexts = [] := fun paths =>
    List.flatMap_eq_nil_iff.mpr (List.forall_mem_map.mpr fun _ _ => rfl)
  have hcondition : ∀ condition? : Option Condition,
      (condition?.toList.map Part.condition : List SourcePart).flatMap Part.fixedTexts =
        condition?.toList.flatMap ConditionTree.fixedTexts := fun condition? => by
    rw [List.flatMap_map]
    rfl
  have hupdate : ∀ (update : Update) (condition? : Option Condition),
      (update.parts condition?).flatMap Part.fixedTexts =
        condition?.toList.flatMap ConditionTree.fixedTexts := fun update condition? => by
    rw [Update.parts, List.flatMap_append, hcondition, List.flatMap_eq_nil_iff.mpr
      (List.forall_mem_map.mpr fun _ _ => rfl), List.nil_append]
  cases call with
  | read record options => exact hpaths _
  | put record condition? | delete record condition? => exact hcondition condition?
  | update record statements condition? | save record condition? => exact hupdate _ condition?
  | scan options =>
    rw [parts, List.flatMap_append, hpaths, hcondition, List.append_nil]
    rfl
  | query options =>
    rw [parts, List.flatMap_cons, List.flatMap_append, hpaths, hcondition, List.append_nil]
    rfl

/-- The compiler gives a name placeholder to a field, and a path with the field is printed. -/
def GivesName (table : Table n) (call : Call) (placeholder field : String) : Prop :=
  IsName placeholder ∧ ∃ prepared ctx,
    (SourcePart.prepareAll table.family table.of (call.parts table)).runOn
        (.fresh table.config.alphabet) = (.ok prepared, ctx) ∧
      ctx.names.get? field = some placeholder ∧
      ∃ part ∈ PreparedPart.printed prepared, ∃ path ∈ Part.paths part,
        field ∈ path.path.fieldNames

/-- The compiler gives a value placeholder to a literal that is printed. -/
def GivesValue (table : Table n) (call : Call) (placeholder : String) (value : AttributeValue) :
    Prop :=
  IsValue placeholder ∧ ∃ prepared ctx,
    (SourcePart.prepareAll table.family table.of (call.parts table)).runOn
        (.fresh table.config.alphabet) = (.ok prepared, ctx) ∧
      ∃ part ∈ PreparedPart.printed prepared, ⟨placeholder, value⟩ ∈ Part.literals part

/-- A request gathers the leaves of the parts that are printed, which were resolved on one context
with the caller's texts. -/
structure Traced (table : Table n) (call : Call) (request : Request)
    (prepared : List PreparedPart) (ctx : Context) : Prop where
  prepare : (SourcePart.prepareAll table.family table.of (call.parts table)).runOn
    (.fresh table.config.alphabet) = (.ok prepared, ctx)
  sourced : ctx.Sourced call.fixedTexts
  texts : prepared.flatMap Part.fixedTexts = call.fixedTexts
  resolved : Resolved (.fresh table.config.alphabet) (prepared.flatMap Part.paths)
    (prepared.flatMap Part.literals) ctx
  gathers : request.meanings.Gathers ((PreparedPart.printed prepared).flatMap PreparedPart.leaves)

variable {table : Table n} {call : Call} {request : Request}

theorem traced_of_run (h : call.run table = .ok request) :
    ∃ prepared ctx, call.Traced table request prepared ctx := by
  obtain ⟨prepared, ctx, hprepare, hgather⟩ := gathered_of_run h
  have hspec : Compile.Spec (Context.Sourced call.fixedTexts)
      (SourcePart.prepareAll table.family table.of (call.parts table)) _ :=
    SourcePart.prepareAll_resolves (Context.stable_sourced _) fun text htext =>
      Context.admits_sourced (by rwa [← fixedTexts_parts table])
  have hfresh : (Context.fresh table.config.alphabet).Sourced call.fixedTexts :=
    Context.sourced_fresh _ _
  have hkeeps := hspec.keeps hfresh
  rw [hprepare] at hkeeps
  obtain ⟨htexts, hresolved⟩ := hspec.result hfresh hprepare
  exact ⟨prepared, ctx, hprepare, hkeeps, htexts.trans (fixedTexts_parts table call), hresolved,
    hgather.trans (.flatMap fun part _ => part.gathers)⟩

namespace Traced

variable {prepared : List PreparedPart} {ctx : Context} (h : call.Traced table request prepared ctx)

include h

/-- The texts of the caller are printed, since only statements are ever left out. -/
theorem mem_leaves {text : Fragment} (htext : text ∈ call.fixedTexts) :
    text ∈ (PreparedPart.printed prepared).flatMap PreparedPart.leaves := by
  rw [← h.texts] at htext
  obtain ⟨part, hpart, htext⟩ := List.mem_flatMap.mp htext
  refine List.mem_flatMap.mpr ⟨part, ?_, List.mem_append_right _ htext⟩
  cases part with
  | condition condition => exact List.mem_append_right _ (List.mem_filter.mpr ⟨hpart, rfl⟩)
  | statement statement | path path => cases htext

/-- A leaf of a printed part is the fragment of a path, of a literal or of a caller's text. -/
theorem leaf_cases {leaf : Fragment}
    (hleaf : leaf ∈ (PreparedPart.printed prepared).flatMap PreparedPart.leaves) :
    (∃ part ∈ PreparedPart.printed prepared, ∃ path ∈ Part.paths part,
        path.BoundIn ctx ∧ leaf = path.fragment) ∨
      (∃ part ∈ PreparedPart.printed prepared, ∃ value ∈ Part.literals part,
        ctx.values.get? value.placeholder = some value.value ∧ leaf = value.fragment) ∨
      leaf ∈ call.fixedTexts := by
  obtain ⟨part, hpart, hleaf⟩ := List.mem_flatMap.mp hleaf
  have hprepared : part ∈ prepared := PreparedPart.printed_subset prepared hpart
  rcases List.mem_append.mp hleaf with hleaf | htext
  · rcases List.mem_append.mp hleaf with hleaf | hliteral
    · obtain ⟨path, hpath, rfl⟩ := List.mem_map.mp hleaf
      exact .inl ⟨part, hpart, path, hpath,
        h.resolved.paths path (List.mem_flatMap.mpr ⟨part, hprepared, hpath⟩), rfl⟩
    · obtain ⟨value, hvalue, rfl⟩ := List.mem_map.mp hliteral
      exact .inr (.inl ⟨part, hpart, value, hvalue,
        h.resolved.minted.bound value (List.mem_flatMap.mpr ⟨part, hprepared, hvalue⟩), rfl⟩)
  · rw [← h.texts]
    exact .inr (.inr (List.mem_flatMap.mpr ⟨part, hprepared, htext⟩))

end Traced

/-- **A name that a request declares comes from a text of the caller or was given to a field.** -/
theorem name_origin (h : call.run table = .ok request) {placeholder : String}
    (hp : placeholder ∈ request.meanings.names.keys) :
    (∃ text ∈ call.fixedTexts, placeholder ∈ text.names.keys) ∨
      ∃ field, request.meanings.names.get? placeholder = some field ∧
        call.GivesName table placeholder field := by
  obtain ⟨prepared, ctx, htraced⟩ := traced_of_run h
  obtain ⟨field, hfield⟩ := (Dict.mem_keys_iff ..).mp hp
  obtain ⟨leaf, hleaf, hentry⟩ := htraced.gathers.exists_name hfield
  rcases htraced.leaf_cases hleaf with
    ⟨part, hpart, path, hpath, hbound, rfl⟩ | ⟨part, hpart, value, hvalue, hbound, rfl⟩ | htext
  · rw [hbound.names] at hentry
    rcases get?_insertOwning hentry with ⟨hmem, howner⟩ | hempty
    · -- A field may have a placeholder that the caller reserved for it.
      rcases htraced.sourced.formed.name htraced.sourced.linked howner with hname | htext
      · exact .inr ⟨field, hfield, hname, prepared, ctx, htraced.prepare, howner, part, hpart,
          path, hpath, hmem⟩
      · exact .inl htext
    · cases hempty
  · cases hentry
  · exact .inl ⟨leaf, htext, Dict.mem_keys_of_get? hentry⟩

/-- **A value that a request declares comes from a text of the caller or was given to a
literal.** -/
theorem value_origin (h : call.run table = .ok request) {placeholder : String}
    (hp : placeholder ∈ request.meanings.values.keys) :
    (∃ text ∈ call.fixedTexts, placeholder ∈ text.values.keys) ∨
      ∃ value, request.meanings.values.get? placeholder = some value ∧
        call.GivesValue table placeholder value := by
  obtain ⟨prepared, ctx, htraced⟩ := traced_of_run h
  obtain ⟨value, hvalue⟩ := (Dict.mem_keys_iff ..).mp hp
  obtain ⟨leaf, hleaf, hentry⟩ := htraced.gathers.exists_value hvalue
  rcases htraced.leaf_cases hleaf with
    ⟨part, hpart, path, hpath, hbound, rfl⟩ | ⟨part, hpart, bound, hmem, hbound, rfl⟩ | htext
  · rw [hbound.values] at hentry
    cases hentry
  · rw [BoundValue.fragment, Dict.get?_singleton] at hentry
    split at hentry
    · next heq =>
      subst heq
      cases hentry
      rcases htraced.sourced.formed.values _ (Dict.mem_keys_of_get? hbound) with hform | htext
      · exact .inr ⟨bound.value, hvalue, hform, prepared, ctx, htraced.prepare, part, hpart, hmem⟩
      · exact .inl htext
    · cases hentry
  · exact .inl ⟨leaf, htext, Dict.mem_keys_of_get? hentry⟩

end Table.Call

end DocExpr
