import DocExpr.Proofs.Gathering
import DocExpr.Proofs.Keeping

/-!
# Parts that are prepared on one context

Requests are compiled from conditions, statements and paths, which are prepared one after the other
on one context.  Some fail, and some statements are prepared and then dropped for a later one; what
they bound stays bound all the same.  Whatever comes in between, the leaves of all parts that were
prepared agree with the context, the texts of the caller among them.

## Main definitions

* `Part`: a condition, a statement or a path
* `SourcePart.prepare`: a part with placeholders for its names and values
* `PreparedPart.pieces`: the fragments that a part is put together from, at every depth
* `Context.Prepared`: the contexts of any sequence of prepares, with the parts that succeeded

## Main results

* `Fragment.reserve_agrees`: a text that is reserved agrees with the context
* `Condition.resolve_reserves`, `SourcePart.prepareAll_reserves`: what reserving a text achieves
  lasts
* `Context.Prepared.leaves_agree`: the leaves of all parts agree with the context
* `Context.Prepared.prepareAll`: parts that are prepared in a row
-/

namespace DocExpr

variable {n : Nat} {family : Family n} {of : Fin n}

/-! ## Parts -/

/-- What is prepared: a condition, a statement of an update, or a path of a projection. -/
inductive Part (P V : Type) where
  | condition (condition : ConditionTree P V)
  | statement (statement : StatementOn P V)
  | path (path : P)

namespace Part

variable {P V : Type}

def paths : Part P V → List P
  | .condition tree => tree.paths
  | .statement own => own.paths
  | .path p => [p]

def literals : Part P V → List V
  | .condition tree => tree.literals
  | .statement own => own.literals
  | .path _ => []

/-- The texts that the caller wrote. -/
def fixedTexts : Part P V → List Fragment
  | .condition tree => tree.fixedTexts
  | .statement _ | .path _ => []

def statement? : Part P V → Option (StatementOn P V)
  | .statement own => some own
  | .condition _ | .path _ => none

end Part

/-- A part as a caller writes it. -/
abbrev SourcePart := Part Path AttributeValue

/-- A part whose names and values have placeholders. -/
abbrev PreparedPart := Part ResolvedPath BoundValue

namespace SourcePart

/-- The part with placeholders for its names and values. -/
def prepare (family : Family n) (of : Fin n) : SourcePart → Compile PreparedPart
  | .condition condition => do
    let condition ← Condition.resolve family of condition
    return .condition condition
  | .statement statement => do
    let statement ← Statement.resolve family of statement
    return .statement statement
  | .path path => do
    let path ← path.resolve family of
    return .path path

/-- Parts that are prepared one after the other. -/
def prepareAll (family : Family n) (of : Fin n) (sources : List SourcePart) :
    Compile (List PreparedPart) :=
  sources.mapM (prepare family of)

/-- The names inside every map of a part are distinct, also in the texts of the caller. -/
structure WellFormed (source : SourcePart) : Prop where
  literals : ∀ value ∈ source.literals, value.WellFormed
  texts : ∀ text ∈ source.fixedTexts, ∀ entry ∈ text.values.entries, entry.2.WellFormed

end SourcePart

namespace PreparedPart

/-- The part in an expression. -/
def fragment : PreparedPart → Fragment
  | .condition condition => ResolvedCondition.fragment condition
  | .statement statement => ResolvedStatement.fragment statement
  | .path path => path.fragment

/-- The fragments of the paths, the values and the texts of a part. -/
def leaves (part : PreparedPart) : List Fragment :=
  leafFragments part.paths part.literals part.fixedTexts

/-- **A part gathers its leaves.** -/
theorem gathers (part : PreparedPart) : part.fragment.Gathers part.leaves := by
  cases part with
  | condition condition => exact ResolvedCondition.gathers condition
  | statement statement => exact ResolvedStatement.gathers statement
  | path path => exact .self path.fragment

end PreparedPart

/-! ## Pieces -/

namespace ResolvedCondition

mutual

/-- The fragments that a condition is put together from: those of the conditions in it, itself
among them, and those of their leaves. -/
def pieces : ResolvedCondition → List Fragment
  | .group connective operands => fragment (.group connective operands) :: piecesOfAll operands
  | .not operand => fragment (.not operand) :: pieces operand
  | condition => fragment condition :: leaves condition

def piecesOfAll : List ResolvedCondition → List Fragment
  | [] => []
  | operand :: rest => pieces operand ++ piecesOfAll rest

end

end ResolvedCondition

/-- The fragments that a value expression is put together from. -/
def ResolvedExpr.pieces : ResolvedExpr → List Fragment
  | .constant value => [value.fragment]
  | .path path => [path.fragment]
  | .arithmetic left op right =>
    ResolvedExpr.fragment (.arithmetic left op right) :: (pieces left ++ pieces right)
  | .listAppend head tail =>
    ResolvedExpr.fragment (.listAppend head tail) :: (pieces head ++ pieces tail)

/-- The fragments that a statement is put together from. -/
def ResolvedStatement.pieces (statement : ResolvedStatement) : List Fragment :=
  statement.fragment :: statement.target.fragment ::
    (statement.action.expr?.map ResolvedExpr.pieces).getD []

/-- The fragments that a part is put together from, itself among them. -/
def PreparedPart.pieces : PreparedPart → List Fragment
  | .condition condition => ResolvedCondition.pieces condition
  | .statement statement => ResolvedStatement.pieces statement
  | .path path => [path.fragment]

/-- A fragment that is put together from some of the leaves. -/
def IsPieceOf (leaves : List Fragment) (piece : Fragment) : Prop :=
  ∃ own, piece.Gathers own ∧ own ⊆ leaves

namespace IsPieceOf

variable {leaves leaves' : List Fragment} {piece : Fragment}

theorem of_mem (h : piece ∈ leaves) : IsPieceOf leaves piece :=
  ⟨[piece], .self piece, by simpa using h⟩

theorem mono (h : IsPieceOf leaves piece) (hsubset : leaves ⊆ leaves') :
    IsPieceOf leaves' piece :=
  let ⟨own, hown, hsub⟩ := h
  ⟨own, hown, List.Subset.trans hsub hsubset⟩

end IsPieceOf

theorem leafFragments_subset {paths paths' : List ResolvedPath}
    {literals literals' : List BoundValue} {texts texts' : List Fragment} (hpaths : paths ⊆ paths')
    (hliterals : literals ⊆ literals') (htexts : texts ⊆ texts') :
    leafFragments paths literals texts ⊆ leafFragments paths' literals' texts' := by
  intro fragment hfragment
  rcases List.mem_append.mp hfragment with hfragment | htext
  · refine List.mem_append_left _ ?_
    rcases List.mem_append.mp hfragment with hpath | hliteral
    · exact List.mem_append_left _ (List.map_subset _ hpaths hpath)
    · exact List.mem_append_right _ (List.map_subset _ hliterals hliteral)
  · exact List.mem_append_right _ (htexts htext)

namespace ResolvedCondition

open ConditionTree

/-- A test is put together from its leaves at once. -/
theorem isPieceOf_of_leaves (condition : ResolvedCondition) :
    ∀ piece ∈ fragment condition :: leaves condition, IsPieceOf (leaves condition) piece :=
  List.forall_mem_cons.mpr
    ⟨⟨_, gathers condition, List.Subset.refl _⟩, fun _ hleaf => .of_mem hleaf⟩

mutual

theorem isPieceOf_leaves : ∀ condition : ResolvedCondition,
    ∀ piece ∈ pieces condition, IsPieceOf (leaves condition) piece
  | .group connective operands => by
    rw [pieces]
    refine List.forall_mem_cons.mpr ⟨⟨_, gathers _, List.Subset.refl _⟩, ?_⟩
    exact isPieceOf_leavesOfAll operands
  | .not operand => by
    rw [pieces]
    refine List.forall_mem_cons.mpr ⟨⟨_, gathers _, List.Subset.refl _⟩, ?_⟩
    exact isPieceOf_leaves operand
  | .fixed .. | .existence .. | .hasType .. | .compare .. | .compareField .. | .between ..
  | .beginsWith .. | .contains .. | .oneOf .. => isPieceOf_of_leaves _

theorem isPieceOf_leavesOfAll : ∀ operands : List ResolvedCondition,
    ∀ piece ∈ piecesOfAll operands, IsPieceOf
      (leafFragments (pathsOfAll operands) (literalsOfAll operands) (fixedTextsOfAll operands))
      piece
  | [] => by simp [piecesOfAll]
  | operand :: rest => by
    rw [piecesOfAll]
    refine List.forall_mem_append.mpr
      ⟨fun piece hpiece => (isPieceOf_leaves operand piece hpiece).mono ?_,
        fun piece hpiece => (isPieceOf_leavesOfAll rest piece hpiece).mono ?_⟩
    · exact leafFragments_subset (List.subset_append_left ..) (List.subset_append_left ..)
        (List.subset_append_left ..)
    · exact leafFragments_subset (List.subset_append_right ..) (List.subset_append_right ..)
        (List.subset_append_right ..)

end

end ResolvedCondition

theorem ResolvedExpr.isPieceOf_leaves (expr : ResolvedExpr) :
    ∀ piece ∈ expr.pieces, IsPieceOf (leafFragments expr.paths expr.literals []) piece := by
  induction expr with
  | constant value => exact List.forall_mem_singleton.mpr (.of_mem (List.mem_singleton_self _))
  | path path => exact List.forall_mem_singleton.mpr (.of_mem (List.mem_singleton_self _))
  | arithmetic left op right ihl ihr | listAppend left right ihl ihr =>
    refine List.forall_mem_cons.mpr
      ⟨⟨_, ResolvedStatement.gathers_expr _, List.Subset.refl _⟩, ?_⟩
    refine List.forall_mem_append.mpr
      ⟨fun piece hpiece => (ihl piece hpiece).mono ?_,
        fun piece hpiece => (ihr piece hpiece).mono ?_⟩
    · exact leafFragments_subset (List.subset_append_left ..) (List.subset_append_left ..) (by simp)
    · exact leafFragments_subset (List.subset_append_right ..) (List.subset_append_right ..)
        (by simp)

theorem ResolvedStatement.isPieceOf_leaves (statement : ResolvedStatement) :
    ∀ piece ∈ statement.pieces, IsPieceOf statement.leaves piece := by
  refine List.forall_mem_cons.mpr ⟨⟨_, gathers statement, List.Subset.refl _⟩,
    List.forall_mem_cons.mpr ⟨.of_mem ?_, ?_⟩⟩
  · simp [leaves, leafFragments, StatementOn.paths]
  · cases hexpr : statement.action.expr? with
    | none => simp
    | some expr =>
      intro piece hpiece
      refine (ResolvedExpr.isPieceOf_leaves expr piece hpiece).mono ?_
      rw [leaves, StatementOn.paths, StatementOn.literals, hexpr]
      exact leafFragments_subset (List.subset_cons_self ..) (List.Subset.refl _)
        (List.Subset.refl _)

/-- **Every piece of a part is put together from leaves of the part.** -/
theorem PreparedPart.isPieceOf_leaves (part : PreparedPart) :
    ∀ piece ∈ part.pieces, IsPieceOf part.leaves piece := by
  cases part with
  | condition condition => exact ResolvedCondition.isPieceOf_leaves condition
  | statement statement => exact ResolvedStatement.isPieceOf_leaves statement
  | path path => exact List.forall_mem_singleton.mpr (.of_mem (List.mem_singleton_self _))

/-! ## What preparing a part does -/

namespace Context

theorem ValuesWellFormed.insert {ctx : Context} (h : ctx.ValuesWellFormed) {placeholder : String}
    {value : AttributeValue} (hvalue : value.WellFormed) {other : String} {v : AttributeValue}
    (hv : (ctx.values.insert placeholder value).get? other = some v) : v.WellFormed := by
  rw [Dict.get?_insert] at hv
  split at hv
  · cases hv
    exact hvalue
  · exact h hv

theorem valuesWellFormed_fresh (alphabet : String) : (fresh alphabet).ValuesWellFormed := nofun

/-- Where the literals and the texts are well formed, the values stay so. -/
theorem valuesWellFormed_kept {literals : List AttributeValue} {texts : List Fragment}
    (hliterals : ∀ value ∈ literals, value.WellFormed)
    (htexts : ∀ text ∈ texts, ∀ entry ∈ text.values.entries, entry.2.WellFormed) :
    KeptByLeaves (fun ctx => ctx.ValuesWellFormed) literals texts where
  bindName field code := .step fun {ctx placeholder ctx'} h hbind => by
    rw [ValuesWellFormed, (frame_bindName hbind).1]
    exact h
  bindValue value hvalue := .step fun {ctx bound ctx'} h hbind => by
    obtain ⟨-, -, -, position, rfl⟩ := bindValue_cases hbind
    exact h.insert (hliterals value hvalue)
  reserveName text _ entry _ := .step fun {ctx a ctx'} h hrun => by
    rcases reserveName_cases (Compile.eq_ok_of_map_unit hrun) with rfl | ⟨-, rfl⟩ <;> exact h
  reserveValue text htext entry hentry := .step fun {ctx a ctx'} h hrun => by
    rcases reserveValue_cases (Compile.eq_ok_of_map_unit hrun) with rfl | ⟨-, rfl⟩
    · exact h
    · exact h.insert (htexts text htext entry hentry)

end Context

open Compile (Spec Keeps)
open Context (stable_linked admits_linked)

/-- Preparing keeps values well formed, whether it succeeds or fails. -/
theorem SourcePart.prepare_keeps {source : SourcePart} (hwf : source.WellFormed) :
    Keeps (fun ctx => ctx.ValuesWellFormed) (source.prepare family of) := by
  have hleaves := Context.valuesWellFormed_kept hwf.literals hwf.texts
  cases source with
  | condition condition =>
    exact (Condition.resolve_keeps condition hleaves).bind fun _ => .pure _
  | statement statement =>
    exact (Statement.resolve_keeps statement hleaves).bind fun _ => .pure _
  | path path => exact (path.resolve_keeps hleaves.bindName).bind fun _ => .pure _

/-- Takes up the placeholders that a text of the caller declares, the names first. -/
def Fragment.reserve (text : Fragment) : Compile Unit := do
  text.names.entries.forM fun (placeholder, field) => Compile.reserveName placeholder field
  text.values.entries.forM fun (placeholder, value) => Compile.reserveValue placeholder value

/-- What the caller wrote was free, or meant the same. -/
theorem Fragment.reserve_declares (text : Fragment) :
    Spec (fun ctx => ctx.Linked) text.reserve fun _ _ ctx' =>
      (∀ {placeholder field}, text.names.get? placeholder = some field →
        ctx'.owners.get? placeholder = some field) ∧
      ∀ {placeholder value}, text.values.get? placeholder = some value → value.same value = true →
        ∃ bound, ctx'.values.get? placeholder = some bound ∧ bound.same value = true := by
  have htext := admits_linked text
  have hnames : ∀ entry ∈ text.names.entries,
      Spec (fun ctx => ctx.Linked) (Compile.reserveName entry.1 entry.2) fun _ _ ctx' =>
        ctx'.owners.get? entry.1 = some entry.2 := fun entry hentry =>
    Spec.reserveName htext (List.mem_map_of_mem hentry) entry.2
  have hvalues : ∀ entry ∈ text.values.entries,
      Spec (fun ctx => ctx.Linked) (Compile.reserveValue entry.1 entry.2) fun _ _ ctx' =>
        entry.2.same entry.2 = true →
          ∃ bound, ctx'.values.get? entry.1 = some bound ∧ bound.same entry.2 = true :=
    fun entry hentry => Spec.reserveValue htext (List.mem_map_of_mem hentry) entry.2
  -- A name that is reserved stays so while the values are reserved.
  refine ((Spec.forM text.names.entries (fun entry ctx => ctx.owners.get? entry.1 = some entry.2)
    (fun hle h => hle.owners h) hnames).bind fun _ _ =>
      Spec.forM text.values.entries (fun entry ctx => entry.2.same entry.2 = true → ∃ bound,
        ctx.values.get? entry.1 = some bound ∧ bound.same entry.2 = true)
        (fun hle h hself => let ⟨bound, hbound, hsame⟩ := h hself
          ⟨bound, hle.values hbound, hsame⟩) hvalues).imp ?_
  rintro ctx _ ctx' - - - ⟨-, mid, hreserved, -, -, hle, hreserved'⟩
  refine ⟨fun {placeholder field} hp => ?_, fun {placeholder value} hp => ?_⟩
  · exact hle.owners (hreserved _ ((text.names.get?_eq_some_iff ..).mp hp))
  · exact hreserved' _ ((text.values.get?_eq_some_iff ..).mp hp)

/-- **A text that is reserved agrees with the context.** -/
theorem Fragment.reserve_agrees {text : Fragment}
    (hwf : ∀ entry ∈ text.values.entries, entry.2.WellFormed) :
    Spec (fun ctx => ctx.Linked) text.reserve fun _ _ ctx' => text.AgreesWith ctx' := by
  refine text.reserve_declares.imp ?_
  rintro ctx _ ctx' - - - ⟨hnames, hvalues⟩
  refine ⟨hnames, fun {placeholder value} hp => hvalues hp ?_⟩
  exact AttributeValue.same_refl (hwf _ ((text.values.get?_eq_some_iff ..).mp hp))

section Reserves

/-- What holds of a text and a context still holds after whatever is bound later. -/
def Lasting (A : Fragment → Context → Prop) : Prop :=
  ∀ text {ctx ctx' : Context}, ctx ≤ ctx' → A text ctx → A text ctx'

variable {A : Fragment → Context → Prop}

namespace Condition

open ConditionTree

mutual

/-- **What reserving a text achieves, a condition achieves for all its texts**, if it resolves and
nothing that is bound later undoes it. -/
theorem resolve_reserves (hA : Lasting A) : ∀ condition : Condition,
    (∀ text ∈ condition.fixedTexts,
      Spec (fun ctx => ctx.Linked) text.reserve fun _ _ ctx' => A text ctx') →
    Spec (fun ctx => ctx.Linked) (condition.resolve family of) fun _ _ ctx' =>
      ∀ text ∈ condition.fixedTexts, A text ctx'
  | .fixed text names values, hreserve => by
    have hreserve := hreserve _ (List.mem_singleton_self _)
    have hfixed : resolve family of (.fixed text names values) = do
        Fragment.reserve ⟨text, names, values⟩
        return .fixed text names values := by
      rw [resolve, Fragment.reserve, bind_assoc]
    rw [hfixed]
    refine (hreserve.bind fun _ _ => Spec.pure _).imp ?_
    rintro ctx _ ctx' - - - ⟨-, mid, htext, -, -, -, -, rfl⟩
    exact List.forall_mem_singleton.mpr htext
  | .group connective operands, hreserve => by
    rw [resolve]
    refine Spec.ite (fun _ => Spec.throw_bind _ _) fun _ => ?_
    refine ((resolveAll_reserves hA operands hreserve).bind fun _ _ => Spec.pure _).imp ?_
    rintro ctx _ ctx' - - - ⟨-, mid, htexts, -, -, -, -, rfl⟩
    exact htexts
  | .not operand, hreserve => by
    rw [resolve]
    refine ((resolve_reserves hA operand hreserve).bind fun _ _ => Spec.pure _).imp ?_
    rintro ctx _ ctx' - - - ⟨-, mid, htexts, -, -, -, -, rfl⟩
    exact htexts
  -- In all other conditions the caller has written no text.
  | .existence .., _ | .hasType .., _ | .compare .., _ | .compareField .., _ | .between .., _
  | .beginsWith .., _ | .contains .., _ | .oneOf .., _ =>
    (resolve_spec stable_linked _ fun _ _ => admits_linked _).imp fun _ _ _ _ => by
      simp [fixedTexts]

theorem resolveAll_reserves (hA : Lasting A) : ∀ conditions : List Condition,
    (∀ text ∈ fixedTextsOfAll conditions,
      Spec (fun ctx => ctx.Linked) text.reserve fun _ _ ctx' => A text ctx') →
    Spec (fun ctx => ctx.Linked) (resolveAll family of conditions) fun _ _ ctx' =>
      ∀ text ∈ fixedTextsOfAll conditions, A text ctx'
  | [], _ => by
    rw [resolveAll]
    exact (Spec.pure []).imp fun _ _ _ _ => by simp [fixedTextsOfAll]
  | condition :: rest, hreserve => by
    obtain ⟨hfirst, hrest⟩ := List.forall_mem_append.mp hreserve
    rw [resolveAll]
    refine ((resolve_reserves hA condition hfirst).bind fun _ _ =>
      (resolveAll_reserves hA rest hrest).bind fun _ _ => Spec.pure _).imp ?_
    rintro ctx _ ctx' - - - ⟨-, mid, hfirst, -, -, -, -, _, hrest, -, hle, hle', -, rfl⟩
    exact List.forall_mem_append.mpr
      ⟨fun text htext => hA text hle' (hA text hle (hfirst text htext)), hrest⟩

end

end Condition

namespace SourcePart

/-- Only a condition has texts to reserve. -/
theorem prepare_reserves (hA : Lasting A) {source : SourcePart}
    (hreserve : ∀ text ∈ source.fixedTexts,
      Spec (fun ctx => ctx.Linked) text.reserve fun _ _ ctx' => A text ctx') :
    Spec (fun ctx => ctx.Linked) (source.prepare family of) fun _ _ ctx' =>
      ∀ text ∈ source.fixedTexts, A text ctx' := by
  cases source with
  | condition condition =>
    refine ((Condition.resolve_reserves hA condition hreserve).bind fun _ _ => Spec.pure _).imp ?_
    rintro ctx _ ctx' - - - ⟨resolved, _, htexts, -, -, -, -, rfl⟩
    exact htexts
  | statement statement =>
    exact ((Statement.resolve_spec stable_linked statement).bind fun _ _ => Spec.pure _).imp
      fun _ _ _ _ => nofun
  | path path =>
    exact ((path.resolve_spec stable_linked).bind fun _ _ => Spec.pure _).imp fun _ _ _ _ => nofun

theorem prepareAll_reserves (hA : Lasting A) {sources : List SourcePart}
    (hreserve : ∀ text ∈ sources.flatMap Part.fixedTexts,
      Spec (fun ctx => ctx.Linked) text.reserve fun _ _ ctx' => A text ctx') :
    Spec (fun ctx => ctx.Linked) (prepareAll family of sources) fun _ _ ctx' =>
      ∀ text ∈ sources.flatMap Part.fixedTexts, A text ctx' := by
  refine Spec.mapM (P := fun _ (sources : List SourcePart) _ ctx' =>
    ∀ text ∈ sources.flatMap Part.fixedTexts, A text ctx') (by simp) ?_ sources
    fun source hsource => prepare_reserves hA fun text htext =>
      hreserve text (List.mem_flatMap.mpr ⟨source, hsource, htext⟩)
  intro ctx mid ctx' source part rest parts hfirst _ hle hrest
  exact List.forall_mem_append.mpr ⟨fun text htext => hA text hle (hfirst text htext), hrest⟩

end SourcePart

end Reserves

namespace SourcePart

section Resolves

variable {I : Context → Prop} (hI : Context.Stable I)

include hI

/-- A part that is prepared keeps its texts, and its paths and literals are resolved. -/
theorem prepare_resolves {source : SourcePart}
    (hfixed : ∀ text ∈ source.fixedTexts, Context.Admits I text) :
    Spec I (source.prepare family of) fun ctx part ctx' =>
      part.fixedTexts = source.fixedTexts ∧ Resolved ctx part.paths part.literals ctx' := by
  cases source with
  | condition condition =>
    refine ((Condition.resolve_spec hI condition hfixed).bind fun _ _ => Spec.pure _).imp ?_
    rintro ctx _ ctx' - - - ⟨resolved, _, ⟨rfl, hresolved⟩, -, -, -, rfl, rfl⟩
    exact ⟨(ConditionTree.fixedTexts_map _ _ resolved).symm, hresolved⟩
  | statement statement =>
    refine ((Statement.resolve_spec hI statement).bind fun _ _ => Spec.pure _).imp ?_
    rintro ctx _ ctx' - - - ⟨resolved, _, ⟨-, hresolved⟩, -, -, -, rfl, rfl⟩
    exact ⟨rfl, hresolved⟩
  | path path =>
    refine ((path.resolve_spec hI).bind fun _ _ => Spec.pure _).imp ?_
    rintro ctx _ ctx' - - - ⟨resolved, _, ⟨-, hresolved⟩, -, -, -, rfl, rfl⟩
    exact ⟨rfl, .path hresolved⟩

/-- Parts that are prepared in a row keep their texts, and all their paths and literals are
resolved. -/
theorem prepareAll_resolves {sources : List SourcePart}
    (hfixed : ∀ text ∈ sources.flatMap Part.fixedTexts, Context.Admits I text) :
    Spec I (prepareAll family of sources) fun ctx parts ctx' =>
      parts.flatMap Part.fixedTexts = sources.flatMap Part.fixedTexts ∧
        Resolved ctx (parts.flatMap Part.paths) (parts.flatMap Part.literals) ctx' := by
  have hsource : ∀ source ∈ sources, ∀ text ∈ source.fixedTexts, Context.Admits I text :=
    fun source hmem text htext => hfixed text (List.mem_flatMap.mpr ⟨source, hmem, htext⟩)
  refine Spec.mapM (P := fun ctx (sources : List SourcePart) (parts : List PreparedPart) ctx' =>
    parts.flatMap Part.fixedTexts = sources.flatMap Part.fixedTexts ∧
      Resolved ctx (parts.flatMap Part.paths) (parts.flatMap Part.literals) ctx')
    (fun ctx => ⟨rfl, .nil ctx ctx⟩) ?_ sources fun source hmem =>
      prepare_resolves hI (hsource source hmem)
  rintro ctx mid ctx' source part rest parts ⟨htext, hpart⟩ hle hle' ⟨htexts, hparts⟩
  simp only [List.flatMap_cons, htext, htexts]
  exact ⟨trivial, hpart.append hparts hle hle'⟩

end Resolves

/-- **A part that is prepared keeps its texts, and its leaves agree with the context.** -/
theorem prepare_spec {source : SourcePart} (hwf : source.WellFormed) :
    Spec (fun ctx => ctx.Linked) (source.prepare family of) fun ctx part ctx' =>
      part.fixedTexts = source.fixedTexts ∧ Resolved ctx part.paths part.literals ctx' ∧
        ∀ text ∈ part.fixedTexts, text.AgreesWith ctx' := by
  have hreserves : Spec (fun ctx => ctx.Linked) (source.prepare family of) fun _ _ ctx' =>
      ∀ text ∈ source.fixedTexts, text.AgreesWith ctx' :=
    prepare_reserves (fun text {_ _} hle h => h.mono hle) fun text htext =>
      Fragment.reserve_agrees (hwf.texts text htext)
  refine ((prepare_resolves stable_linked fun _ _ => admits_linked _).and hreserves).imp ?_
  rintro ctx part ctx' - - - ⟨⟨htext, hresolved⟩, htexts⟩
  exact ⟨htext, hresolved, htext ▸ htexts⟩

/-- What preparing a part does to the context, however it ends. -/
theorem prepare_after {source : SourcePart} (hwf : source.WellFormed) {ctx ctx' : Context}
    {result : Except ExpressionError PreparedPart}
    (hrun : (source.prepare family of).runOn ctx = (result, ctx')) (hlinked : ctx.Linked) :
    ctx'.Linked ∧ ctx ≤ ctx' ∧ (ctx.ValuesWellFormed → ctx'.ValuesWellFormed) := by
  have hspec : Spec (fun ctx => ctx.Linked) (source.prepare family of) _ := prepare_spec hwf
  have hlinked' : ((source.prepare family of).runOn ctx).2.Linked := hspec.keeps hlinked
  have hgrows := hspec.grows hlinked
  have hvalues : _ → ((source.prepare family of).runOn ctx).2.ValuesWellFormed :=
    prepare_keeps hwf ctx
  rw [hrun] at hlinked' hgrows hvalues
  exact ⟨hlinked', hgrows, hvalues⟩

end SourcePart

/-! ## Sequences of prepares -/

namespace Context

/-- A context after any sequence of prepares, each over a schema of its own, and the parts that were
prepared.  A prepare that fails adds no part, but what it bound before it failed stays bound. -/
inductive Prepared : Context → List PreparedPart → Prop where
  | fresh (alphabet : String) : Prepared (fresh alphabet) []
  | prepare {ctx ctx' : Context} {parts : List PreparedPart} {n : Nat} {family : Family n}
    {of : Fin n} {source : SourcePart} {part : PreparedPart} : Prepared ctx parts →
    source.WellFormed → (source.prepare family of).runOn ctx = (.ok part, ctx') →
      Prepared ctx' (parts ++ [part])
  | fail {ctx ctx' : Context} {parts : List PreparedPart} {n : Nat} {family : Family n}
    {of : Fin n} {source : SourcePart} {e : ExpressionError} : Prepared ctx parts →
    source.WellFormed → (source.prepare family of).runOn ctx = (.error e, ctx') →
      Prepared ctx' parts

namespace Prepared

variable {ctx ctx' : Context} {parts : List PreparedPart}

theorem linked (h : ctx.Prepared parts) : ctx.Linked := by
  induction h with
  | fresh alphabet => exact linked_fresh alphabet
  | prepare _ hwf hrun ih | fail _ hwf hrun ih => exact (SourcePart.prepare_after hwf hrun ih).1

theorem valuesWellFormed (h : ctx.Prepared parts) : ctx.ValuesWellFormed := by
  induction h with
  | fresh alphabet => exact valuesWellFormed_fresh alphabet
  | prepare hbefore hwf hrun ih | fail hbefore hwf hrun ih =>
    exact (SourcePart.prepare_after hwf hrun hbefore.linked).2.2 ih

/-- **The leaves of all parts agree with the context**, whatever was prepared after them. -/
theorem leaves_agree (h : ctx.Prepared parts) :
    ∀ part ∈ parts, ∀ leaf ∈ PreparedPart.leaves part, leaf.AgreesWith ctx := by
  induction h with
  | fresh alphabet => simp
  | prepare hbefore hwf hrun ih =>
    obtain ⟨-, hgrows, -⟩ := SourcePart.prepare_after hwf hrun hbefore.linked
    obtain ⟨-, hresolved, htexts⟩ := (SourcePart.prepare_spec hwf).result hbefore.linked hrun
    have hafter := hbefore.prepare hwf hrun
    refine List.forall_mem_append.mpr ⟨fun part hpart leaf hleaf =>
      (ih part hpart leaf hleaf).mono hgrows, List.forall_mem_singleton.mpr ?_⟩
    exact hresolved.agreesWith hafter.linked hafter.valuesWellFormed htexts
  | fail hbefore hwf hrun ih =>
    obtain ⟨-, hgrows, -⟩ := SourcePart.prepare_after hwf hrun hbefore.linked
    exact fun part hpart leaf hleaf => (ih part hpart leaf hleaf).mono hgrows

/-- **Parts that are prepared in a row** are a sequence of prepares. -/
theorem prepareAll (h : ctx.Prepared parts) {sources : List SourcePart}
    (hwf : ∀ source ∈ sources, source.WellFormed) {prepared : List PreparedPart}
    (hrun : (SourcePart.prepareAll family of sources).runOn ctx = (.ok prepared, ctx')) :
    ctx'.Prepared (parts ++ prepared) ∧
      prepared.flatMap Part.fixedTexts = sources.flatMap Part.fixedTexts := by
  induction sources generalizing ctx parts prepared with
  | nil =>
    rw [SourcePart.prepareAll, List.mapM_nil] at hrun
    cases hrun
    rw [List.append_nil]
    exact ⟨h, rfl⟩
  | cons source rest ih =>
    obtain ⟨hsource, hrest⟩ := List.forall_mem_cons.mp hwf
    rw [SourcePart.prepareAll, List.mapM_cons] at hrun
    obtain ⟨part, mid, hpart, hrun⟩ := Compile.runOn_bind_eq_ok_iff.mp hrun
    obtain ⟨others, last, hothers, hrun⟩ := Compile.runOn_bind_eq_ok_iff.mp hrun
    cases hrun
    obtain ⟨hprepared, htexts⟩ := ih (h.prepare hsource hpart) hrest hothers
    obtain ⟨htext, -⟩ := (SourcePart.prepare_spec hsource).result h.linked hpart
    rw [List.append_assoc, List.singleton_append] at hprepared
    exact ⟨hprepared, by rw [List.flatMap_cons, List.flatMap_cons, htexts, htext]⟩

end Prepared

end Context

end DocExpr
