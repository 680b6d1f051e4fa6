import DocExpr.Proofs.Merging

/-!
# The expressions of a request

A store looks at the expressions of a request and at its dictionaries, not at the parts they were
put together from.  What a caller's text mentions, some expression of the request mentions: the text
is taken as it is, and what is written around it joins no reference.  So the check of a request is a
check of the caller's texts as well.

## Main definitions

* `Request.expressions`: the texts in which placeholders are mentioned
* `ConditionTree.MentionedIn`: a text mentions all that the caller's texts in a condition mention
* `Table.Call.compile`, `Table.FinishedFrom`: what an operation compiles, and what a request is
  finished from

## Main results

* `Fragment.references_join`, `Fragment.references_enclose`: the references of a composed text
* `ResolvedCondition.mentioned`: a condition mentions what the caller's texts in it mention
* `Table.Call.finishedFrom_of_run`: a request is finished from what its operation compiles
* `Table.Call.expressed_of_run`: its expressions mention what the caller's texts mention, and have
  passed the check if there is one
-/

namespace DocExpr

variable {n : Nat} {family : Family n} {of : Fin n}

/-! ## The references of composed texts -/

namespace Fragment

/-- **A separator keeps references apart** and mentions nothing. -/
theorem references_join {separator : String} (hs : IsSeparator separator)
    (fragments : List Fragment) : references (join separator fragments).text.toList =
      fragments.flatMap fun fragment => references fragment.text.toList := by
  induction fragments with
  | nil => rfl
  | cons a rest ih =>
    cases rest with
    | nil => simp [join]
    | cons b rest =>
      have hbefore : opens (a.text.toList ++ separator.toList) := opens_append hs.opens hs.ne_nil
      rw [join, text_append, text_append, ofText, String.toList_append, String.toList_append,
        references_append (.inr hbefore), references_append (.inl hs.closes),
        references_plain hs.plain, ih, List.append_nil]
      rfl

/-- Plain texts on both sides mention nothing and join nothing. -/
theorem references_enclose {before after : String}
    (hbefore : Plain before.toList ∧ opens before.toList)
    (hafter : Plain after.toList ∧ closes after.toList) (a : Fragment) :
    references (enclose before a after).text.toList = references a.text.toList := by
  rw [enclose, text_append, text_append, ofText, ofText, String.toList_append,
    String.toList_append, references_append (.inl hafter.2), references_append (.inr hbefore.2),
    references_plain hbefore.1, references_plain hafter.1, List.nil_append, List.append_nil]

end Fragment

namespace ConditionTree

/-- What the caller's texts in a condition mention, a text mentions. -/
def MentionedIn {P V : Type} (condition : ConditionTree P V) (text : String) : Prop :=
  ∀ own ∈ condition.fixedTexts, references own.text.toList ⊆ references text.toList

end ConditionTree

namespace ResolvedCondition

open ConditionTree

mutual

/-- **What the caller's texts mention, the whole condition mentions.** -/
theorem mentioned : ∀ condition : ResolvedCondition, condition.MentionedIn condition.fragment.text
  | .fixed text names values => List.forall_mem_singleton.mpr (List.Subset.refl _)
  | .group connective operands => by
    intro own hown placeholder hp
    obtain ⟨operand, hoperand, hsubset⟩ := mentionedAll operands own hown
    rw [fragment, Fragment.references_join (isSeparator_connective connective)]
    exact List.mem_flatMap.mpr ⟨operand, hoperand, hsubset hp⟩
  | .not operand => by
    rw [MentionedIn, fragment, Fragment.references_enclose (by decide) (by decide)]
    exact mentioned operand
  -- In all other conditions the caller has written no text.
  | .existence .. | .hasType .. | .compare .. | .compareField .. | .between .. | .beginsWith ..
  | .contains .. | .oneOf .. => nofun

theorem mentionedAll : ∀ operands : List ResolvedCondition, ∀ own ∈ fixedTextsOfAll operands,
    ∃ operand ∈ enclosed operands,
      references own.text.toList ⊆ references operand.text.toList
  | [] => nofun
  | operand :: rest => by
    intro own hown
    rw [enclosed]
    rcases List.mem_append.mp hown with hown | hown
    · refine ⟨_, List.mem_cons_self, ?_⟩
      rw [Fragment.references_enclose (by decide) (by decide)]
      exact mentioned operand own hown
    · obtain ⟨other, hother, hsubset⟩ := mentionedAll rest own hown
      exact ⟨other, List.mem_cons_of_mem _ hother, hsubset⟩

end

end ResolvedCondition

/-! ## Compiled conditions -/

section Compile

open Compile (Spec)
open Context (stable_linked admits_linked linked_fresh)

theorem Condition.compile_mentions (condition : Condition) :
    Spec (fun ctx => ctx.Linked) (condition.compile family of) fun _ fragment _ =>
      condition.MentionedIn fragment.text := by
  refine (condition.compile_spec stable_linked fun _ _ => admits_linked _).imp ?_
  rintro ctx _ ctx' - - - ⟨resolved, rfl, rfl, -⟩ own hown
  rw [ResolvedCondition.source, ConditionTree.fixedTexts_map] at hown
  exact resolved.mentioned own hown

/-- An optional condition is left out or mentioned. -/
theorem compileCondition?_mentions (condition? : Option Condition) :
    Spec (fun ctx => ctx.Linked) (compileCondition? family of condition?) fun _ fragment? _ =>
      ∀ condition ∈ condition?, ∃ fragment ∈ fragment?, condition.MentionedIn fragment.text := by
  cases condition? with
  | none => exact (Spec.pure none).imp fun _ _ _ _ => nofun
  | some condition =>
    rw [compileCondition?]
    refine (condition.compile_mentions.bind fun _ _ => Spec.pure _).imp ?_
    rintro ctx _ ctx' - - - ⟨fragment, _, hmention, -, -, -, rfl, -⟩ _ ⟨⟩
    exact ⟨fragment, rfl, hmention⟩

/-- Statements come before the condition and have no texts of the caller. -/
theorem Update.compile_mentions (update : Update) (condition? : Option Condition) :
    Spec (fun ctx => ctx.Linked) (update.compile family of condition?) fun _ compiled _ =>
      ∀ condition ∈ condition?, ∃ fragment ∈ compiled.condition?,
        condition.MentionedIn fragment.text := by
  unfold Update.compile
  refine ((resolveStatements_spec stable_linked update).bind fun _ _ =>
    (compileCondition?_mentions condition?).bind fun _ _ => Spec.pure _).imp ?_
  rintro ctx _ ctx' - - - ⟨-, -, -, -, -, -, fragment?, -, hmention, -, -, -, rfl, -⟩
  exact hmention

/-- A projection declares no values. -/
theorem compileProjection_values (paths : List Path) :
    Spec (fun ctx => ctx.Linked) (compileProjection family of paths) fun _ fragment? _ =>
      ∀ fragment ∈ fragment?, fragment.values = ∅ := by
  unfold compileProjection
  refine Spec.ite (fun _ => (Spec.pure none).imp ?_) fun _ =>
    ((resolvePaths_spec stable_linked paths).bind fun _ _ => Spec.pure _).imp ?_
  · rintro ctx _ ctx' - - - ⟨rfl, -⟩ fragment hfragment
    cases hfragment
  · rintro ctx _ ctx' - - - ⟨resolved, _, ⟨-, hresolved⟩, -, -, -, rfl, -⟩ _ ⟨⟩
    refine Dict.eq_empty_of_forall_notMem fun placeholder hp => ?_
    obtain ⟨fragment, hfragment, hp⟩ := (Fragment.mem_values_join ..).mp hp
    obtain ⟨path, hpath, rfl⟩ := List.mem_map.mp hfragment
    rw [(hresolved.paths path hpath).values] at hp
    cases hp

end Compile

/-! ## Requests -/

/-- The texts of a request in which placeholders are mentioned. -/
def Request.expressions : Request → List String
  | .getItem request => [request.projection].reduceOption
  | .putItem request => [request.condition].reduceOption
  | .updateItem request => [request.update, request.condition].reduceOption
  | .deleteItem request => [request.condition].reduceOption
  | .query request => [request.keyCondition, request.filter, request.projection].reduceOption
  | .scan request => [request.filter, request.projection].reduceOption

namespace Table

/-- With the check, a request is finished only if it passes. -/
theorem checkPlaceholders_of_finish {table : Table n} {fragments : List (Option Fragment)}
    {declared : Fragment} (hvalidate : table.config.validate = true)
    (h : table.finish fragments = .ok declared) :
    checkPlaceholders (fragments.filterMap text?) declared.names declared.values = .ok () := by
  obtain rfl := eq_declarations_of_finish h
  rw [finish, if_pos hvalidate] at h
  obtain ⟨⟨⟩, hcheck, -⟩ := Except.bind_eq_ok_iff.mp h
  exact hcheck

/-- The expressions of a request are those of some fragments, and so are its dictionaries. -/
structure FinishedFrom (table : Table n) (request : Request) (fragments : List (Option Fragment)) :
    Prop where
  finish : table.finish fragments = .ok (declarations fragments)
  expressions : request.expressions = (fragments.map text?).reduceOption
  names : request.meanings.names = (declarations fragments).names
  values : request.meanings.values = (declarations fragments).values

/-- The expressions of an update and its condition. -/
def compileUpdate (table : Table n) (update : Update) (condition? : Option Condition) :
    Compile (List (Option Fragment)) := do
  let compiled ← update.compile table.family table.of condition?
  return [compiled.update?, compiled.condition?]

namespace Call

open Compile (Spec runOn_bind_eq_ok_iff)
open Context (linked_fresh)

/-- What an operation compiles, in the order in which it is checked. -/
def compile (table : Table n) : Call → Compile (List (Option Fragment))
  | read _ options => do
    let projection ← compileProjection table.family table.of options.projection
    return [projection]
  | put _ condition | delete _ condition => do
    let condition ← compileCondition? table.family table.of condition
    return [condition]
  | update _ statements condition => table.compileUpdate statements condition
  | save record condition =>
    table.compileUpdate ((table.family.derive table.of record).toOption.getD []) condition
  | scan options => do
    let filter ← compileCondition? table.family table.of options.filter
    let projection ← compileProjection table.family table.of options.projection
    return [filter, projection]
  | query options => do
    let keyCondition ← options.keyCondition.compile table.family table.of
    let filter ← compileCondition? table.family table.of options.filter
    let projection ← compileProjection table.family table.of options.projection
    return [some keyCondition, filter, projection]

theorem finishedFrom_of_update {table : Table n} {record : Record} {update : Update}
    {condition? : Option Condition} {request : UpdateRequest}
    (h : table.update record update condition? = .ok request) :
    ∃ fragments ctx, (table.compileUpdate update condition?).runOn
        (.fresh table.config.alphabet) = (.ok fragments, ctx) ∧
      FinishedFrom table (.updateItem request) fragments := by
  simp only [Table.update, Except.bind_eq_ok_iff] at h
  obtain ⟨compiled, hrun, declared, hfinish, key, -, heq⟩ := h
  cases heq
  obtain rfl := eq_declarations_of_finish hfinish
  obtain ⟨ctx, hrun⟩ := exists_of_run hrun
  exact ⟨_, ctx, runOn_bind_eq_ok_iff.mpr ⟨compiled, ctx, hrun, rfl⟩, hfinish, rfl, rfl, rfl⟩

/-- **A request is finished from what its operation compiles** on a context of its own. -/
theorem finishedFrom_of_run {table : Table n} {call : Call} {request : Request}
    (h : call.run table = .ok request) :
    ∃ fragments ctx, (call.compile table).runOn (.fresh table.config.alphabet) =
        (.ok fragments, ctx) ∧
      FinishedFrom table request fragments := by
  cases call with
  | read record options =>
    obtain ⟨request, hread, rfl⟩ := Except.map_eq_ok_iff.mp h
    simp only [Table.read, Except.bind_eq_ok_iff] at hread
    obtain ⟨projection, hrun, declared, hfinish, key, -, heq⟩ := hread
    cases heq
    obtain rfl := eq_declarations_of_finish hfinish
    obtain ⟨ctx, hrun⟩ := exists_of_run hrun
    -- A read has no dictionary of values, and nothing would be in it.
    have hvalues : (declarations [projection]).values = ∅ := by
      cases projection with
      | none => rfl
      | some fragment =>
        exact (compileProjection_values options.projection).result (linked_fresh _) hrun _ rfl
    exact ⟨_, ctx, runOn_bind_eq_ok_iff.mpr ⟨projection, ctx, hrun, rfl⟩, hfinish, rfl, rfl,
      hvalues.symm⟩
  | put record condition? =>
    obtain ⟨request, hput, rfl⟩ := Except.map_eq_ok_iff.mp h
    simp only [Table.put, Except.bind_eq_ok_iff] at hput
    obtain ⟨fragment?, hrun, declared, hfinish, item, -, heq⟩ := hput
    cases heq
    obtain rfl := eq_declarations_of_finish hfinish
    obtain ⟨ctx, hrun⟩ := exists_of_run hrun
    exact ⟨_, ctx, runOn_bind_eq_ok_iff.mpr ⟨fragment?, ctx, hrun, rfl⟩, hfinish, rfl, rfl, rfl⟩
  | delete record condition? =>
    obtain ⟨request, hdelete, rfl⟩ := Except.map_eq_ok_iff.mp h
    simp only [Table.delete, Except.bind_eq_ok_iff] at hdelete
    obtain ⟨fragment?, hrun, declared, hfinish, key, -, heq⟩ := hdelete
    cases heq
    obtain rfl := eq_declarations_of_finish hfinish
    obtain ⟨ctx, hrun⟩ := exists_of_run hrun
    exact ⟨_, ctx, runOn_bind_eq_ok_iff.mpr ⟨fragment?, ctx, hrun, rfl⟩, hfinish, rfl, rfl, rfl⟩
  | update record statements condition? =>
    obtain ⟨request, hupdate, rfl⟩ := Except.map_eq_ok_iff.mp h
    exact finishedFrom_of_update hupdate
  | save record condition? =>
    obtain ⟨request, hsave, rfl⟩ := Except.map_eq_ok_iff.mp h
    obtain ⟨update, hderive, hupdate⟩ := Except.bind_eq_ok_iff.mp hsave
    rw [compile, Except.mapError_eq_ok_iff.mp hderive]
    exact finishedFrom_of_update hupdate
  | scan options =>
    obtain ⟨request, hscan, rfl⟩ := Except.map_eq_ok_iff.mp h
    simp only [Table.scan, Except.bind_eq_ok_iff] at hscan
    obtain ⟨⟨filter, projection⟩, hrun, declared, hfinish, heq⟩ := hscan
    cases heq
    obtain rfl := eq_declarations_of_finish hfinish
    obtain ⟨ctx, hrun⟩ := exists_of_run hrun
    simp only [runOn_bind_eq_ok_iff] at hrun
    obtain ⟨_, mid, hfilter, _, _, hprojection, heq⟩ := hrun
    cases heq
    refine ⟨_, ctx, runOn_bind_eq_ok_iff.mpr ⟨filter, mid, hfilter, ?_⟩, hfinish, rfl, rfl, rfl⟩
    exact runOn_bind_eq_ok_iff.mpr ⟨projection, ctx, hprojection, rfl⟩
  | query options =>
    obtain ⟨request, hquery, rfl⟩ := Except.map_eq_ok_iff.mp h
    simp only [Table.query, Except.bind_eq_ok_iff] at hquery
    obtain ⟨⟨keyCondition, filter, projection⟩, hrun, declared, hfinish, heq⟩ := hquery
    cases heq
    obtain rfl := eq_declarations_of_finish hfinish
    obtain ⟨ctx, hrun⟩ := exists_of_run hrun
    simp only [runOn_bind_eq_ok_iff] at hrun
    obtain ⟨_, mid, hkey, _, mid', hfilter, _, _, hprojection, heq⟩ := hrun
    cases heq
    refine ⟨_, ctx, runOn_bind_eq_ok_iff.mpr ⟨keyCondition, mid, hkey, ?_⟩, hfinish, rfl, rfl, rfl⟩
    refine runOn_bind_eq_ok_iff.mpr ⟨filter, mid', hfilter, ?_⟩
    exact runOn_bind_eq_ok_iff.mpr ⟨projection, ctx, hprojection, rfl⟩

/-- The texts of some conditions are mentioned by some fragments. -/
def AllMentioned (conditions : List Condition) (fragments : List (Option Fragment)) : Prop :=
  ∀ condition ∈ conditions, ∃ fragment? ∈ fragments, ∃ fragment ∈ fragment?,
    condition.MentionedIn fragment.text

theorem compileUpdate_mentions (table : Table n) (update : Update) (condition? : Option Condition) :
    Spec (fun ctx => ctx.Linked) (table.compileUpdate update condition?) fun _ fragments _ =>
      AllMentioned condition?.toList fragments := by
  refine ((update.compile_mentions condition?).bind fun _ _ => Spec.pure _).imp ?_
  rintro ctx _ ctx' - - - ⟨compiled, -, hmention, -, -, -, rfl, -⟩ condition hcondition
  exact ⟨compiled.condition?, by simp, hmention condition (Option.mem_toList.mp hcondition)⟩

/-- What the conditions of an operation mention is mentioned by what it compiles. -/
theorem compile_mentions (table : Table n) (call : Call) :
    Spec (fun ctx => ctx.Linked) (call.compile table) fun _ fragments _ =>
      AllMentioned call.conditions fragments := by
  cases call with
  | read record options =>
    exact ((compileProjection_values _).bind fun _ _ => Spec.pure _).imp fun _ _ _ _ => nofun
  | put record condition? | delete record condition? =>
    refine ((compileCondition?_mentions condition?).bind fun _ _ => Spec.pure _).imp ?_
    rintro ctx _ ctx' - - - ⟨fragment?, -, hmention, -, -, -, rfl, -⟩ condition hcondition
    exact ⟨fragment?, by simp, hmention condition (Option.mem_toList.mp hcondition)⟩
  | update record statements condition? => exact compileUpdate_mentions table statements condition?
  | save record condition? => exact compileUpdate_mentions table _ condition?
  | scan options =>
    refine ((compileCondition?_mentions options.filter).bind fun _ _ =>
      (compileProjection_values options.projection).bind fun _ _ => Spec.pure _).imp ?_
    rintro ctx _ ctx' - - - ⟨filter, -, hfilter, -, -, -, projection, -, -, -, -, -, rfl, -⟩
      condition hcondition
    exact ⟨filter, by simp, hfilter condition (Option.mem_toList.mp hcondition)⟩
  | query options =>
    refine (options.keyCondition.compile_mentions.bind fun _ _ =>
      (compileCondition?_mentions options.filter).bind fun _ _ =>
        (compileProjection_values options.projection).bind fun _ _ => Spec.pure _).imp ?_
    rintro ctx _ ctx' - - - ⟨key, -, hkey, -, -, -, filter, -, hfilter, -, -, -, projection, -, -,
      -, -, -, rfl, -⟩
    refine List.forall_mem_cons.mpr ⟨⟨some key, by simp, key, rfl, hkey⟩, ?_⟩
    intro condition hcondition
    exact ⟨filter, by simp, hfilter condition (Option.mem_toList.mp hcondition)⟩

/-- The expressions of a request mention what the conditions of a call mention, and have passed the
check if there is one. -/
structure Expressed (table : Table n) (conditions : List Condition) (request : Request) : Prop where
  mentioned : ∀ condition ∈ conditions, ∃ expression ∈ request.expressions,
    condition.MentionedIn expression
  checked : table.config.validate = true →
    checkPlaceholders request.expressions request.meanings.names request.meanings.values = .ok ()

/-- **The expressions of a request mention what the caller's texts mention**, and have passed the
check if there is one. -/
theorem expressed_of_run {table : Table n} {call : Call} {request : Request}
    (h : call.run table = .ok request) : Expressed table call.conditions request := by
  obtain ⟨fragments, ctx, hrun, hfinished⟩ := finishedFrom_of_run h
  have hmentioned := (compile_mentions table call).result (linked_fresh _) hrun
  have htexts : request.expressions = fragments.filterMap text? :=
    hfinished.expressions.trans List.filterMap_map
  refine ⟨fun condition hcondition => ?_, fun hvalidate => ?_⟩
  · obtain ⟨fragment?, hmem, fragment, hfragment, hmention⟩ := hmentioned condition hcondition
    refine ⟨fragment.text, ?_, hmention⟩
    rw [htexts]
    exact List.mem_filterMap.mpr ⟨fragment?, hmem, Option.map_eq_some_iff.mpr ⟨_, hfragment, rfl⟩⟩
  · rw [htexts, hfinished.names, hfinished.values]
    exact checkPlaceholders_of_finish hvalidate hfinished.finish

end Call

end Table

end DocExpr
