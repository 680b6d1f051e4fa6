import DocExpr.Proofs.Export
import DocExpr.Proofs.Preparing
import DocExpr.Proofs.UpdateMeaning
import DocExpr.Proofs.Validation

/-!
# Merges keep meanings

The dictionaries of a request are merged from those of its parts, and a merge would let a later
entry take the place of an earlier one without a word.  It never does: all parts agree with one
context, so no two of them give one placeholder two meanings.  A text of the caller that disagrees
with what is bound, or with another text, is refused when it is prepared, and then there is nothing
to merge.

That holds for any sequence of prepares on one context, whatever is put together from the parts, and
for every operation of a table.  A statement that is dropped for a later one agrees with the others
just the same.

## Main definitions

* `Fragment.KeepsParts`: what is built from some parts takes no meaning back
* `Context.Conflicts`: texts of the caller that give a placeholder a second meaning
* `Context.KeepsMeanings`, `Table.Call.KeepsMeanings`: what is built on a context, and by an
  operation of a table

## Main results

* `Context.Prepared.keepsParts`: what gathers parts of one context keeps all their meanings
* `Context.Prepared.prepareAll_fails`: texts that conflict are refused
* `Table.Call.gathered_of_run`: a request gathers the parts that were prepared for it
* `merging_keeps_meanings`: nothing that is built overwrites a meaning
-/

namespace DocExpr

variable {n : Nat} {family : Family n} {of : Fin n}

open Fragment (Gathers GatherAll)

/-! ## What is built from parts -/

/-- A fragment that is built from some of the parts gives no placeholder a meaning that a part, or a
piece of one, gives otherwise, and has the entries of all pieces of the chosen parts. -/
structure Fragment.KeepsParts (whole : Fragment) (parts chosen : List PreparedPart) : Prop where
  compatible : ∀ part ∈ parts, ∀ piece ∈ PreparedPart.pieces part, piece.Compatible whole
  kept : ∀ part ∈ chosen, ∀ piece ∈ PreparedPart.pieces part, piece.KeptIn whole

/-- Parts that are prepared in a row take nothing back that was bound before. -/
theorem SourcePart.le_of_prepareAll {sources : List SourcePart}
    (hwf : ∀ source ∈ sources, source.WellFormed) {ctx ctx' : Context} (hlinked : ctx.Linked)
    {result : Except ExpressionError (List PreparedPart)}
    (hrun : (prepareAll family of sources).runOn ctx = (result, ctx')) : ctx ≤ ctx' := by
  have hspec : Compile.Spec (fun ctx => ctx.Linked) (prepareAll family of sources) fun _ _ _ =>
      True :=
    .mapM (P := fun _ _ _ _ => True) (fun _ => trivial) (fun _ _ _ _ => trivial) sources
      fun source hsource => prepare_spec (hwf source hsource)
  have hle := hspec.grows hlinked
  rwa [hrun] at hle

namespace Context

/-- One of some texts gives a placeholder another meaning than the context or than another text. -/
def Conflicts (ctx : Context) (texts : List Fragment) : Prop :=
  ∃ text ∈ texts, ¬ text.Compatible ctx.meanings ∨ ∃ other ∈ texts, ¬ text.Compatible other

/-- A conflict stays, since nothing that is bound is taken back. -/
theorem Conflicts.mono {ctx ctx' : Context} {texts : List Fragment} (h : ctx.Conflicts texts)
    (hle : ctx ≤ ctx') : ctx'.Conflicts texts := by
  obtain ⟨text, htext, hno | hother⟩ := h
  · refine ⟨text, htext, .inl fun hcompatible => hno ⟨fun hp hbound => ?_, fun hp hbound => ?_⟩⟩
    · exact hcompatible.names hp (hle.owners hbound)
    · exact hcompatible.values hp (hle.values hbound)
  · exact ⟨text, htext, .inr hother⟩

namespace Prepared

variable {ctx ctx' : Context} {parts : List PreparedPart}

/-- The pieces of all parts agree with the context, since their leaves do. -/
theorem pieces_agree (h : ctx.Prepared parts) :
    ∀ part ∈ parts, ∀ piece ∈ PreparedPart.pieces part, piece.AgreesWith ctx := by
  intro part hpart piece hpiece
  obtain ⟨own, hown, hsubset⟩ := part.isPieceOf_leaves piece hpiece
  exact hown.agreesWith fun leaf hleaf => h.leaves_agree part hpart leaf (hsubset hleaf)

/-- **What gathers parts of one context keeps all their meanings.** -/
theorem keepsParts (h : ctx.Prepared parts) {chosen : List PreparedPart} (hchosen : chosen ⊆ parts)
    {whole : Fragment} (hwhole : whole.Gathers (chosen.map PreparedPart.fragment)) :
    whole.KeepsParts parts chosen := by
  have hleaves : whole.Gathers (chosen.flatMap PreparedPart.leaves) :=
    hwhole.trans (.flatMap fun part _ => part.gathers)
  have hagree : ∀ leaf ∈ chosen.flatMap PreparedPart.leaves, leaf.AgreesWith ctx := by
    intro leaf hleaf
    obtain ⟨part, hpart, hleaf⟩ := List.mem_flatMap.mp hleaf
    exact h.leaves_agree part (hchosen hpart) leaf hleaf
  refine ⟨fun part hpart piece hpiece => ?_, fun part hpart piece hpiece => ?_⟩
  · exact (h.pieces_agree part hpart piece hpiece).compatible (hleaves.agreesWith hagree)
      h.valuesWellFormed
  · obtain ⟨own, hown, hsubset⟩ := part.isPieceOf_leaves piece hpiece
    refine hleaves.keptIn_of_subset hown (fun leaf hleaf => ?_) hagree h.valuesWellFormed
    exact List.mem_flatMap.mpr ⟨part, hpart, hsubset hleaf⟩

/-- The context itself has the meanings of all its parts. -/
theorem keepsParts_meanings (h : ctx.Prepared parts) : ctx.meanings.KeepsParts parts parts where
  compatible part hpart piece hpiece :=
    (h.pieces_agree part hpart piece hpiece).compatible (.meanings h.valuesWellFormed)
      h.valuesWellFormed
  kept part hpart piece hpiece := by
    have hagree := h.pieces_agree part hpart piece hpiece
    refine ⟨hagree.names, fun hp => ?_⟩
    obtain ⟨bound, hbound, hsame⟩ := hagree.values hp
    exact ⟨bound, hbound, AttributeValue.same_symm (h.valuesWellFormed hbound) hsame⟩

/-- **Texts that conflict are refused.**  What is bound before a prepare fails counts as well, so
this is about placeholders that are minted on the way, too. -/
theorem prepareAll_fails (h : ctx.Prepared parts) {sources : List SourcePart}
    (hwf : ∀ source ∈ sources, source.WellFormed)
    {result : Except ExpressionError (List PreparedPart)}
    (hrun : (SourcePart.prepareAll family of sources).runOn ctx = (result, ctx'))
    (hconflict : ctx.Conflicts (sources.flatMap Part.fixedTexts) ∨
      ctx'.Conflicts (sources.flatMap Part.fixedTexts)) : ∃ e, result = .error e := by
  cases result with
  | error e => exact ⟨e, rfl⟩
  | ok prepared =>
    exfalso
    have hle : ctx ≤ ctx' := SourcePart.le_of_prepareAll hwf h.linked hrun
    replace hconflict := hconflict.elim (fun hbefore => hbefore.mono hle) id
    obtain ⟨hafter, htexts⟩ := h.prepareAll hwf hrun
    -- A text that was prepared is a leaf of its part, so it agrees with the context after.
    have hagree : ∀ text ∈ sources.flatMap Part.fixedTexts, text.AgreesWith ctx' := by
      rw [← htexts]
      intro text htext
      obtain ⟨part, hpart, htext⟩ := List.mem_flatMap.mp htext
      exact hafter.leaves_agree part (List.mem_append_right _ hpart) text
        (List.mem_append_right _ htext)
    have hvalues : ctx'.ValuesWellFormed := hafter.valuesWellFormed
    obtain ⟨text, htext, hno | ⟨other, hother, hno⟩⟩ := hconflict
    · exact hno ((hagree text htext).compatible (.meanings hvalues) hvalues)
    · exact hno ((hagree text htext).compatible (hagree other hother) hvalues)

end Prepared

end Context

/-! ## Compiling is preparing in a row -/

namespace SourcePart

variable {ctx mid ctx' : Context}

theorem runOn_prepareAll_append {sources sources' : List SourcePart}
    {parts parts' : List PreparedPart}
    (h : (prepareAll family of sources).runOn ctx = (.ok parts, mid))
    (h' : (prepareAll family of sources').runOn mid = (.ok parts', ctx')) :
    (prepareAll family of (sources ++ sources')).runOn ctx = (.ok (parts ++ parts'), ctx') := by
  rw [prepareAll, List.mapM_append]
  exact Compile.runOn_bind_eq_ok_iff.mpr ⟨parts, mid, h,
    Compile.runOn_bind_eq_ok_iff.mpr ⟨parts', ctx', h', rfl⟩⟩

/-- Parts of one kind. -/
theorem runOn_prepareAll_map {α β : Type} {f : α → Compile β} {source : α → SourcePart}
    {build : β → PreparedPart}
    (hprepare : ∀ a, (source a).prepare family of = do let b ← f a; return build b) (l : List α)
    {bs : List β} (h : (l.mapM f).runOn ctx = (.ok bs, ctx')) :
    (prepareAll family of (l.map source)).runOn ctx = (.ok (bs.map build), ctx') := by
  -- Each step goes on from the context that the last one left.
  induction l generalizing ctx bs with
  | nil =>
    rw [List.mapM_nil] at h
    cases h
    rfl
  | cons a rest ih =>
    rw [List.mapM_cons] at h
    obtain ⟨b, mid, hb, h⟩ := Compile.runOn_bind_eq_ok_iff.mp h
    obtain ⟨others, last, hothers, h⟩ := Compile.runOn_bind_eq_ok_iff.mp h
    cases h
    rw [List.map_cons, prepareAll, List.mapM_cons, hprepare]
    refine Compile.runOn_bind_eq_ok_iff.mpr ⟨build b, mid, ?_, ?_⟩
    · exact Compile.runOn_bind_eq_ok_iff.mpr ⟨b, mid, hb, rfl⟩
    · exact Compile.runOn_bind_eq_ok_iff.mpr ⟨others.map build, ctx', ih hothers, rfl⟩

end SourcePart

/-- The parts that are printed: of the statements those that no later one takes the place of. -/
def PreparedPart.printed (parts : List PreparedPart) : List PreparedPart :=
  (survivors (parts.filterMap Part.statement?)).map .statement ++
    parts.filter fun part => part.statement?.isNone

namespace PreparedPart

theorem printed_subset (parts : List PreparedPart) : printed parts ⊆ parts := by
  intro part hpart
  rcases List.mem_append.mp hpart with hpart | hpart
  · obtain ⟨statement, hstatement, rfl⟩ := List.mem_map.mp hpart
    obtain ⟨part, hmem, hpart⟩ := List.mem_filterMap.mp (mem_of_mem_survivors hstatement)
    cases part with
    | statement own =>
      cases hpart
      exact hmem
    | condition _ | path _ => cases hpart
  · exact List.mem_of_mem_filter hpart

/-- What is no statement is printed. -/
theorem printed_append {statements : List ResolvedStatement} {others : List PreparedPart}
    (hothers : ∀ part ∈ others, part.statement? = none) :
    printed (statements.map .statement ++ others) =
      (survivors statements).map .statement ++ others := by
  have hstatements : (statements.map Part.statement ++ others).filterMap Part.statement? =
      statements := by
    rw [List.filterMap_append, List.filterMap_map, List.filterMap_eq_nil_iff.mpr hothers,
      List.append_nil]
    exact List.filterMap_some
  have hrest : (statements.map Part.statement ++ others).filter (fun part : PreparedPart =>
      part.statement?.isNone) = others := by
    rw [List.filter_append, List.filter_eq_nil_iff.mpr (List.forall_mem_map.mpr fun _ _ => by
      simp [Part.statement?]), List.nil_append]
    exact List.filter_eq_self.mpr fun part hpart => by rw [hothers part hpart]; rfl
  rw [printed, hstatements, hrest]

theorem printed_eq_self {parts : List PreparedPart}
    (hparts : ∀ part ∈ parts, part.statement? = none) : printed parts = parts :=
  @printed_append [] parts hparts

end PreparedPart

/-- The parts of an update and its condition, in the order in which they are prepared. -/
def Update.parts (update : Update) (condition? : Option Condition) : List SourcePart :=
  update.map .statement ++ condition?.toList.map .condition

/-- What the placeholders of a compiled update mean. -/
def CompiledUpdate.meanings (compiled : CompiledUpdate) : Fragment :=
  { text := "", names := compiled.names, values := compiled.values }

/-- Parts without statements are prepared in a row, and some fragments gather them. -/
def PreparedAs (family : Family n) (of : Fin n) (ctx : Context) (sources : List SourcePart)
    (fragments : List Fragment) (ctx' : Context) : Prop :=
  ∃ parts, (SourcePart.prepareAll family of sources).runOn ctx = (.ok parts, ctx') ∧
    (∀ part ∈ parts, part.statement? = none) ∧
      GatherAll fragments (parts.map PreparedPart.fragment)

section Compile

open Compile (runOn_bind_eq_ok_iff)
open SourcePart (runOn_prepareAll_append runOn_prepareAll_map)

variable {ctx mid ctx' : Context}

theorem PreparedAs.append {sources sources' : List SourcePart}
    {fragments fragments' : List Fragment}
    (h : PreparedAs family of ctx sources fragments mid)
    (h' : PreparedAs family of mid sources' fragments' ctx') :
    PreparedAs family of ctx (sources ++ sources') (fragments ++ fragments') ctx' := by
  obtain ⟨parts, hrun, hnone, hgather⟩ := h
  obtain ⟨parts', hrun', hnone', hgather'⟩ := h'
  refine ⟨parts ++ parts', runOn_prepareAll_append hrun hrun', ?_, ?_⟩
  · exact List.forall_mem_append.mpr ⟨hnone, hnone'⟩
  · rw [List.map_append]
    exact hgather.append hgather'

/-- A condition that compiles was prepared. -/
theorem preparedAs_of_condition {condition : Condition} {fragment : Fragment}
    (h : (condition.compile family of).runOn ctx = (.ok fragment, ctx')) :
    PreparedAs family of ctx [.condition condition] [fragment] ctx' := by
  obtain ⟨resolved, _, hresolve, h⟩ := runOn_bind_eq_ok_iff.mp h
  cases h
  have hrun : ([condition].mapM (Condition.resolve family of)).runOn ctx = (.ok [resolved], ctx') :=
    runOn_bind_eq_ok_iff.mpr ⟨resolved, ctx', hresolve, rfl⟩
  exact ⟨[.condition resolved], runOn_prepareAll_map (fun _ => rfl) _ hrun,
    List.forall_mem_singleton.mpr rfl, .singleton (.self _)⟩

theorem preparedAs_of_condition? {condition? : Option Condition} {fragment? : Option Fragment}
    (h : (compileCondition? family of condition?).runOn ctx = (.ok fragment?, ctx')) :
    PreparedAs family of ctx (condition?.toList.map .condition) fragment?.toList ctx' := by
  cases condition? with
  | none =>
    cases h
    exact ⟨[], rfl, by simp, .nil⟩
  | some condition =>
    obtain ⟨fragment, _, hcompile, h⟩ := runOn_bind_eq_ok_iff.mp h
    cases h
    exact preparedAs_of_condition hcompile

/-- The paths of a projection that compiles were resolved. -/
theorem exists_of_compileProjection {paths : List Path} {fragment? : Option Fragment}
    (h : (compileProjection family of paths).runOn ctx = (.ok fragment?, ctx')) :
    ∃ resolved, (paths.mapM (Path.resolve family of)).runOn ctx = (.ok resolved, ctx') ∧
      GatherAll fragment?.toList (resolved.map ResolvedPath.fragment) := by
  rw [compileProjection] at h
  split at h
  · next hempty =>
    cases h
    rw [List.isEmpty_iff.mp hempty, List.mapM_nil]
    exact ⟨[], rfl, .nil⟩
  · obtain ⟨resolved, _, hresolve, h⟩ := runOn_bind_eq_ok_iff.mp h
    cases h
    exact ⟨resolved, hresolve, .singleton (.join _ _)⟩

theorem preparedAs_of_projection {paths : List Path} {fragment? : Option Fragment}
    (h : (compileProjection family of paths).runOn ctx = (.ok fragment?, ctx')) :
    PreparedAs family of ctx (paths.map .path) fragment?.toList ctx' := by
  obtain ⟨resolved, hresolve, hgather⟩ := exists_of_compileProjection h
  refine ⟨resolved.map .path, runOn_prepareAll_map (fun _ => rfl) paths hresolve, ?_, ?_⟩
  · exact List.forall_mem_map.mpr fun _ _ => rfl
  · rw [List.map_map]
    exact hgather

/-- **An update that compiles was prepared part by part**, and its expressions gather the statements
that count and the condition. -/
theorem Update.exists_prepared {update : Update} {condition? : Option Condition}
    {compiled : CompiledUpdate}
    (h : (update.compile family of condition?).runOn ctx = (.ok compiled, ctx')) :
    ∃ parts, (SourcePart.prepareAll family of (update.parts condition?)).runOn ctx =
        (.ok parts, ctx') ∧
      GatherAll compiled.fragments ((PreparedPart.printed parts).map PreparedPart.fragment) := by
  obtain ⟨statements, mid, hstatements, h⟩ := runOn_bind_eq_ok_iff.mp h
  obtain ⟨condition?, _, hcondition, h⟩ := runOn_bind_eq_ok_iff.mp h
  cases h
  obtain ⟨parts, hparts, hnone, hgather⟩ := preparedAs_of_condition? hcondition
  refine ⟨statements.map .statement ++ parts, runOn_prepareAll_append
    (runOn_prepareAll_map (fun _ => rfl) update hstatements) hparts, ?_⟩
  rw [PreparedPart.printed_append hnone, List.map_append, List.map_map]
  refine GatherAll.append ?_ hgather
  -- There is no expression only if there is no statement, and then there is nothing to gather.
  cases hupdate : updateFragment? (survivors statements) with
  | none =>
    rw [(updateFragment?_eq_none_iff _).mp hupdate]
    exact .nil
  | some fragment => exact .singleton (updateFragment?_gathers hupdate)

end Compile

/-- What a fragment gathers is a matter of its dictionaries alone. -/
theorem Fragment.Gathers.of_eq {whole other : Fragment} {parts : List Fragment}
    (h : whole.Gathers parts) (hnames : other.names = whole.names)
    (hvalues : other.values = whole.values) : other.Gathers parts :=
  ⟨hnames ▸ h.names_subset, hvalues ▸ h.values_subset, fun hp => h.exists_name (hnames ▸ hp),
    fun hp => h.exists_value (hvalues ▸ hp)⟩

/-- The declarations of some fragments gather what the fragments gather. -/
theorem declarations_gathers {fragments : List (Option Fragment)} {parts : List Fragment}
    (h : GatherAll (fragments.flatMap Option.toList) parts) :
    (declarations fragments).Gathers parts := by
  have hpresent : fragments.filterMap id = fragments.flatMap Option.toList := by
    rw [List.filterMap_eq_flatMap_toList]
    rfl
  rw [declarations, hpresent]
  exact (Gathers.join _ _).trans h

/-- A fragment that may be missing. -/
theorem Fragment.Gathers.getD (fragment? : Option Fragment) :
    (fragment?.getD .empty).Gathers fragment?.toList := by
  cases fragment? with
  | none => exact .ofText ""
  | some fragment => exact .self fragment

/-- The dictionaries of a compiled update gather what its expressions gather. -/
theorem CompiledUpdate.meanings_gathers {compiled : CompiledUpdate} {parts : List Fragment}
    (h : GatherAll compiled.fragments parts) : compiled.meanings.Gathers parts := by
  have hboth := (Gathers.getD compiled.update?).append (Gathers.getD compiled.condition?)
  refine (hboth.trans h).of_eq ?_ ?_
  all_goals
    obtain ⟨_ | update, _ | condition⟩ := compiled <;> rfl

/-! ## Requests -/

open Compile (runOn_bind_eq_ok_iff)

/-- What the placeholders of a request mean. -/
def Request.meanings : Request → Fragment
  | .getItem request => { text := "", names := request.names }
  | .putItem request => { text := "", names := request.names, values := request.values }
  | .updateItem request => { text := "", names := request.names, values := request.values }
  | .deleteItem request => { text := "", names := request.names, values := request.values }
  | .query request => { text := "", names := request.names, values := request.values }
  | .scan request => { text := "", names := request.names, values := request.values }

namespace Table

namespace Call

/-- The parts that an operation is given, in the order in which they are prepared. -/
def parts (table : Table n) : Call → List SourcePart
  | read _ options => options.projection.map .path
  | put _ condition | delete _ condition => condition.toList.map .condition
  | update _ statements condition => statements.parts condition
  | save record condition =>
    ((table.family.derive table.of record).toOption.getD []).parts condition
  | scan options => options.filter.toList.map .condition ++ options.projection.map .path
  | query options =>
    .condition options.keyCondition ::
      (options.filter.toList.map .condition ++ options.projection.map .path)

/-- The parts of a call were prepared on one context, and a fragment gathers what is printed. -/
def Gathered (table : Table n) (sources : List SourcePart) (whole : Fragment) : Prop :=
  ∃ prepared ctx, (SourcePart.prepareAll table.family table.of sources).runOn
      (.fresh table.config.alphabet) = (.ok prepared, ctx) ∧
    whole.Gathers ((PreparedPart.printed prepared).map PreparedPart.fragment)

/-- What is declared of parts without statements. -/
theorem gathered_of_finish {table : Table n} {sources : List SourcePart}
    {fragments : List (Option Fragment)} {ctx : Context} {declared : Fragment}
    (hfinish : table.finish fragments = .ok declared)
    (h : PreparedAs table.family table.of (.fresh table.config.alphabet) sources
      (fragments.flatMap Option.toList) ctx) : Gathered table sources declared := by
  obtain ⟨prepared, hrun, hnone, hgather⟩ := h
  refine ⟨prepared, ctx, hrun, ?_⟩
  rw [PreparedPart.printed_eq_self hnone, eq_declarations_of_finish hfinish]
  exact declarations_gathers hgather

/-- The dictionaries of a request that declares all that was gathered. -/
theorem Gathered.of_eq {table : Table n} {sources : List SourcePart} {whole other : Fragment}
    (h : Gathered table sources whole) (hnames : other.names = whole.names)
    (hvalues : other.values = whole.values) : Gathered table sources other :=
  let ⟨prepared, ctx, hrun, hgather⟩ := h
  ⟨prepared, ctx, hrun, hgather.of_eq hnames hvalues⟩

theorem gathered_of_read {table : Table n} {record : Record} {options : ReadOptions}
    {request : GetRequest} (h : table.read record options = .ok request) :
    Gathered table (options.projection.map .path) (Request.getItem request).meanings := by
  simp only [Table.read, Except.bind_eq_ok_iff] at h
  obtain ⟨projection, hrun, declared, hfinish, key, -, heq⟩ := h
  cases heq
  obtain ⟨ctx, hrun⟩ := exists_of_run hrun
  obtain ⟨resolved, hresolve, hgather⟩ := exists_of_compileProjection hrun
  -- A read declares no values, and paths have none.
  have hvalues : ∀ path ∈ resolved, path.fragment.values = ∅ := fun path hpath =>
    (((resolvePaths_spec Context.stable_linked options.projection).result
      (Context.linked_fresh _) hresolve).2.paths path hpath).values
  have hdeclared : declared.Gathers (resolved.map ResolvedPath.fragment) := by
    rw [eq_declarations_of_finish hfinish]
    exact declarations_gathers (by simpa using hgather)
  refine ⟨resolved.map .path, ctx,
    SourcePart.runOn_prepareAll_map (fun _ => rfl) _ hresolve, ?_⟩
  rw [PreparedPart.printed_eq_self (List.forall_mem_map.mpr fun _ _ => rfl), List.map_map]
  refine ⟨hdeclared.names_subset, List.forall_mem_map.mpr fun path hpath => ?_,
    hdeclared.exists_name, nofun⟩
  show ∀ placeholder ∈ path.fragment.values.keys, _
  rw [hvalues path hpath]
  simp

theorem gathered_of_update {table : Table n} {record : Record} {update : Update}
    {condition? : Option Condition} {request : UpdateRequest}
    (h : table.update record update condition? = .ok request) :
    Gathered table (update.parts condition?) (Request.updateItem request).meanings := by
  simp only [Table.update, Except.bind_eq_ok_iff] at h
  obtain ⟨compiled, hrun, declared, hfinish, key, -, heq⟩ := h
  cases heq
  obtain ⟨ctx, hrun⟩ := exists_of_run hrun
  obtain ⟨prepared, hprepared, hgather⟩ := Update.exists_prepared hrun
  refine ⟨prepared, ctx, hprepared, ?_⟩
  have hdeclared : (declarations [compiled.update?, compiled.condition?]).Gathers _ :=
    declarations_gathers (by simpa [CompiledUpdate.fragments] using hgather)
  exact hdeclared.of_eq (by rw [eq_declarations_of_finish hfinish]; rfl)
    (by rw [eq_declarations_of_finish hfinish]; rfl)

/-- The dictionaries of a condition that stands alone. -/
theorem gathered_of_condition? {table : Table n} {condition? : Option Condition}
    {fragment? : Option Fragment} {declared : Fragment}
    (hrun : table.run (compileCondition? table.family table.of condition?) = .ok fragment?)
    (hfinish : table.finish [fragment?] = .ok declared) :
    Gathered table (condition?.toList.map .condition) declared := by
  obtain ⟨ctx, hrun⟩ := exists_of_run hrun
  exact gathered_of_finish hfinish (by simpa using preparedAs_of_condition? hrun)

/-- **A request gathers the parts that were prepared for it**, but for the statements that a later
one takes the place of. -/
theorem gathered_of_run {table : Table n} {call : Call} {request : Request}
    (h : call.run table = .ok request) : Gathered table (call.parts table) request.meanings := by
  cases call with
  | read record options =>
    obtain ⟨request, hread, rfl⟩ := Except.map_eq_ok_iff.mp h
    exact gathered_of_read hread
  | put record condition? =>
    obtain ⟨request, hput, rfl⟩ := Except.map_eq_ok_iff.mp h
    simp only [Table.put, Except.bind_eq_ok_iff] at hput
    obtain ⟨fragment?, hrun, declared, hfinish, item, -, heq⟩ := hput
    cases heq
    exact (gathered_of_condition? hrun hfinish).of_eq rfl rfl
  | delete record condition? =>
    obtain ⟨request, hdelete, rfl⟩ := Except.map_eq_ok_iff.mp h
    simp only [Table.delete, Except.bind_eq_ok_iff] at hdelete
    obtain ⟨fragment?, hrun, declared, hfinish, key, -, heq⟩ := hdelete
    cases heq
    exact (gathered_of_condition? hrun hfinish).of_eq rfl rfl
  | update record statements condition? =>
    obtain ⟨request, hupdate, rfl⟩ := Except.map_eq_ok_iff.mp h
    exact gathered_of_update hupdate
  | save record condition? =>
    obtain ⟨request, hsave, rfl⟩ := Except.map_eq_ok_iff.mp h
    obtain ⟨update, hderive, hupdate⟩ := Except.bind_eq_ok_iff.mp hsave
    rw [parts, Except.mapError_eq_ok_iff.mp hderive]
    exact gathered_of_update hupdate
  | scan options =>
    obtain ⟨request, hscan, rfl⟩ := Except.map_eq_ok_iff.mp h
    simp only [Table.scan, Except.bind_eq_ok_iff] at hscan
    obtain ⟨⟨filter, projection⟩, hrun, declared, hfinish, heq⟩ := hscan
    cases heq
    obtain ⟨ctx, hrun⟩ := exists_of_run hrun
    simp only [runOn_bind_eq_ok_iff] at hrun
    obtain ⟨_, mid, hfilter, _, _, hprojection, heq⟩ := hrun
    cases heq
    have hprepared := (preparedAs_of_condition? hfilter).append
      (preparedAs_of_projection hprojection)
    exact (gathered_of_finish hfinish (by simpa [parts] using hprepared)).of_eq rfl rfl
  | query options =>
    obtain ⟨request, hquery, rfl⟩ := Except.map_eq_ok_iff.mp h
    simp only [Table.query, Except.bind_eq_ok_iff] at hquery
    obtain ⟨⟨keyCondition, filter, projection⟩, hrun, declared, hfinish, heq⟩ := hquery
    cases heq
    obtain ⟨ctx, hrun⟩ := exists_of_run hrun
    simp only [runOn_bind_eq_ok_iff] at hrun
    obtain ⟨_, mid, hkey, _, mid', hfilter, _, _, hprojection, heq⟩ := hrun
    cases heq
    have hprepared := (preparedAs_of_condition hkey).append
      ((preparedAs_of_condition? hfilter).append (preparedAs_of_projection hprojection))
    exact (gathered_of_finish hfinish (by simpa [parts] using hprepared)).of_eq rfl rfl

end Call

end Table

/-! ## Nothing is overwritten -/

/-- What is built on a context on which some parts were prepared. -/
structure Context.KeepsMeanings (ctx : Context) (parts : List PreparedPart) : Prop where
  /-- The context has what every piece of every part means. -/
  known : ctx.meanings.KeepsParts parts parts
  /-- So has every merge of parts, each part by itself included. -/
  merged (separator : String) {chosen : List PreparedPart} : chosen ⊆ parts →
    (Fragment.join separator (chosen.map PreparedPart.fragment)).KeepsParts parts chosen
  /-- An update that is compiled on the context keeps what was prepared before and for it. -/
  update {n : Nat} {family : Family n} {of : Fin n} {update : Update}
    {condition? : Option Condition} {compiled : CompiledUpdate} {ctx' : Context} :
    (∀ source ∈ update.parts condition?, source.WellFormed) →
    (update.compile family of condition?).runOn ctx = (.ok compiled, ctx') →
      ∃ prepared, (SourcePart.prepareAll family of (update.parts condition?)).runOn ctx =
          (.ok prepared, ctx') ∧
        ctx'.Prepared (parts ++ prepared) ∧
        compiled.meanings.KeepsParts (parts ++ prepared) (PreparedPart.printed prepared)
  /-- There is no such update if some texts conflict with one another or with what is bound, before
  it or on the way. -/
  refused {n : Nat} {family : Family n} {of : Fin n} {update : Update}
    {condition? : Option Condition} {result : Except ExpressionError (List PreparedPart)}
    {ctx' : Context} :
    (∀ source ∈ update.parts condition?, source.WellFormed) →
    (SourcePart.prepareAll family of (update.parts condition?)).runOn ctx = (result, ctx') →
      ctx.Conflicts ((update.parts condition?).flatMap Part.fixedTexts) ∨
        ctx'.Conflicts ((update.parts condition?).flatMap Part.fixedTexts) →
      ∃ e after, (update.compile family of condition?).runOn ctx = (.error e, after)
  /-- Whatever is prepared next, no entry of the context is taken back, and texts that conflict
  with one another or with the entries are refused. -/
  next {n : Nat} {family : Family n} {of : Fin n} {sources : List SourcePart}
    {result : Except ExpressionError (List PreparedPart)} {ctx' : Context} :
    (∀ source ∈ sources, source.WellFormed) →
    (SourcePart.prepareAll family of sources).runOn ctx = (result, ctx') →
      ctx ≤ ctx' ∧
        (ctx.Conflicts (sources.flatMap Part.fixedTexts) ∨
          ctx'.Conflicts (sources.flatMap Part.fixedTexts) → ∃ e, result = .error e)

/-- What an operation of a table builds, on a context of its own. -/
structure Table.Call.KeepsMeanings (table : Table n) (call : Call) : Prop where
  /-- The expression maps of the request keep what was prepared for it. -/
  kept {request : Request} : call.run table = .ok request →
    ∃ prepared ctx, (SourcePart.prepareAll table.family table.of (call.parts table)).runOn
        (.fresh table.config.alphabet) = (.ok prepared, ctx) ∧
      ctx.Prepared prepared ∧
      request.meanings.KeepsParts prepared (PreparedPart.printed prepared)
  /-- There is no request if some texts conflict with one another or with what is bound. -/
  refused {result : Except ExpressionError (List PreparedPart)} {ctx : Context} :
    (SourcePart.prepareAll table.family table.of (call.parts table)).runOn
        (.fresh table.config.alphabet) = (result, ctx) →
      ctx.Conflicts ((call.parts table).flatMap Part.fixedTexts) → ∃ e, call.run table = .error e

/-- **Merges never overwrite a meaning.**  After any sequence of prepares on one context, each with
success or without, what is put together from the prepared parts gives no placeholder another
meaning than any piece of any of them, and has the entries of all pieces of the parts that it is put
together from; so have the dictionaries of an update that is compiled there and the expression maps
of a request.  Texts of the caller that would give a placeholder a second meaning are refused. -/
theorem merging_keeps_meanings :
    (∀ {ctx : Context} {parts : List PreparedPart}, ctx.Prepared parts →
      ctx.KeepsMeanings parts) ∧
    ∀ {n : Nat} (table : Table n) (call : Table.Call),
      (∀ source ∈ call.parts table, source.WellFormed) → call.KeepsMeanings table := by
  refine ⟨fun {ctx parts} h => ⟨h.keepsParts_meanings, fun separator chosen hchosen => ?_,
    fun hwf hrun => ?_,
    fun {_ family of update condition? result ctx'} hwf hprepare hconflict => ?_,
    fun hwf hrun => ?_⟩, fun table call hwf => ⟨fun hrun => ?_, fun hprepare hconflict => ?_⟩⟩
  · exact h.keepsParts hchosen (.join _ _)
  · obtain ⟨prepared, hprepare, hgather⟩ := Update.exists_prepared hrun
    obtain ⟨hafter, -⟩ := h.prepareAll hwf hprepare
    refine ⟨prepared, hprepare, hafter,
      hafter.keepsParts ?_ (CompiledUpdate.meanings_gathers hgather)⟩
    exact List.subset_append_of_subset_right _ (PreparedPart.printed_subset prepared)
  · -- A compiled update would have been prepared on the way.
    obtain ⟨e, rfl⟩ := h.prepareAll_fails hwf hprepare hconflict
    rcases hrun : (update.compile family of condition?).runOn ctx with ⟨e | compiled, after⟩
    · exact ⟨e, after, rfl⟩
    · obtain ⟨prepared, hprepare', -⟩ := Update.exists_prepared hrun
      rw [hprepare'] at hprepare
      cases hprepare
  · exact ⟨SourcePart.le_of_prepareAll hwf h.linked hrun, h.prepareAll_fails hwf hrun⟩
  · obtain ⟨prepared, ctx, hprepare, hgather⟩ := Table.Call.gathered_of_run hrun
    obtain ⟨hafter, -⟩ := (Context.Prepared.fresh table.config.alphabet).prepareAll hwf hprepare
    rw [List.nil_append] at hafter
    exact ⟨prepared, ctx, hprepare, hafter,
      hafter.keepsParts (PreparedPart.printed_subset prepared) hgather⟩
  · cases hrun : call.run table with
    | error e => exact ⟨e, rfl⟩
    | ok request =>
      obtain ⟨prepared, ctx', hprepare', -⟩ := Table.Call.gathered_of_run hrun
      obtain ⟨e, rfl⟩ := (Context.Prepared.fresh table.config.alphabet).prepareAll_fails hwf
        hprepare (.inr hconflict)
      rw [hprepare'] at hprepare
      cases hprepare

/-- A text of the caller beside a condition that has to keep clear of its placeholders, and two
texts that give one placeholder two meanings; before that, a path on a context of its own. -/
theorem merging_keeps_meanings_fixed :
    let table : Table 1 := { name := "people", family := persons, of := 0, config := ⟨"BC", true⟩ }
    let text (field : String) : Fragment := {
      text := "size(#B) > :C"
      names := .singleton "#B" field
      values := .singleton ":C" (.number "3") }
    let fixed (field : String) : Condition :=
      .fixed (text field).text (text field).names (text field).values
    let call (other : Condition) : Table.Call := .query {
      keyCondition := .compare (.ofName "id") .eq (.string "x")
      filter := some (.group .and [fixed "name", other]) }
    (∃ (ctx : Context) (part : PreparedPart), ctx.Prepared [part] ∧ ctx.KeepsMeanings [part]) ∧
      (∃ request, (call (.existence (.ofName "age") true)).run table = .ok request) ∧
      (call (.existence (.ofName "age") true)).KeepsMeanings table ∧
      ∃ e, (call (fixed "age")).run table = .error e := by
  intro table text fixed call
  have htext : ∀ field, ∀ fragment ∈ (fixed field).fixedTexts,
      ∀ entry ∈ fragment.values.entries, entry.2.WellFormed := fun field =>
    List.forall_mem_singleton.mpr (List.forall_mem_singleton.mpr trivial)
  -- Only the other operand of the filter differs between the two calls.
  have hwf : ∀ other : Condition, other.literals = [] →
      (∀ fragment ∈ other.fixedTexts, ∀ entry ∈ fragment.values.entries, entry.2.WellFormed) →
      ∀ source ∈ (call other).parts table, source.WellFormed := by
    intro other hliterals hfixed
    refine List.forall_mem_cons.mpr ⟨⟨List.forall_mem_singleton.mpr trivial, ?_⟩,
      List.forall_mem_singleton.mpr ⟨?_, ?_⟩⟩
    · simp [Part.fixedTexts, ConditionTree.fixedTexts]
    · show ∀ value ∈ [] ++ (other.literals ++ []), value.WellFormed
      simp [hliterals]
    · show ∀ fragment ∈ (fixed "name").fixedTexts ++ (other.fixedTexts ++ []), _
      rw [List.append_nil]
      exact List.forall_mem_append.mpr ⟨htext "name", hfixed⟩
  refine ⟨?_, ?_, ?_, ?_⟩
  · have hpath : ((SourcePart.prepare persons 0 (.path (.ofName "name"))).runOn
        (.fresh "BC")).1.toOption.map (fun part => part.fragment.text) = some "#B" := by
      decide +kernel
    obtain ⟨part, ctx, hprepare, -⟩ := Compile.exists_of_toOption hpath
    have hprepared : ctx.Prepared [part] :=
      .prepare (.fresh "BC") ⟨by simp [Part.literals], by simp [Part.fixedTexts]⟩ hprepare
    exact ⟨ctx, part, hprepared, merging_keeps_meanings.1 hprepared⟩
  · have hrun : ((call (.existence (.ofName "age") true)).run table).toOption.isSome = true := by
      decide +kernel
    cases hrequest : (call (.existence (.ofName "age") true)).run table with
    | ok request => exact ⟨request, rfl⟩
    | error e =>
      rw [hrequest] at hrun
      cases hrun
  · exact merging_keeps_meanings.2 table _ (hwf _ rfl (by simp [ConditionTree.fixedTexts]))
  · refine (merging_keeps_meanings.2 table _ (hwf (fixed "age") rfl (htext "age"))).refused rfl ?_
    have htexts : ((call (fixed "age")).parts table).flatMap Part.fixedTexts =
        [text "name", text "age"] := rfl
    rw [htexts]
    refine ⟨text "name", by simp, .inr ⟨text "age", by simp, fun h => ?_⟩⟩
    have hsame : "name" = "age" :=
      h.names (show (text "name").names.get? "#B" = some "name" from rfl) rfl
    exact absurd hsame (by decide)

end DocExpr
