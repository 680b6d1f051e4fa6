import DocExpr.Proofs.ConditionMeaning
import DocExpr.Proofs.Survivors

/-!
# Updates compile to what they say

Every statement binds placeholders before it is known which ones survive.  The overwritten ones use
up codes and give names to fields that survivors use as well, but nothing of them is printed or
declared: the expression reads as the clauses of the surviving statements, and the dictionaries
declare the placeholders that the printed expressions mention.

## Main definitions

* `CompiledUpdate.Means`: what the expressions of an update and of its condition read as

## Main results

* `updateFragment?_eq_none_iff`: only an update without statements has no expression
* `Update.compile_means`: a compiled update means the surviving statements
-/

namespace DocExpr

variable {n : Nat} {family : Family n} {of : Fin n}

/-! ## The expressions of an update -/

namespace CompiledUpdate

/-- The expressions that are there. -/
def fragments (compiled : CompiledUpdate) : List Fragment :=
  compiled.update?.toList ++ compiled.condition?.toList

/-- The placeholders that the expressions mention. -/
def mentioned (compiled : CompiledUpdate) : List String :=
  compiled.fragments.flatMap fun fragment => references fragment.text.toList

section Parts

variable {α : Type} (part : Fragment → Dict α)

/-- One of the two dictionaries of the expressions, taken together; `names` and `values` are this
for the two. -/
def merged (compiled : CompiledUpdate) : Dict α :=
  ((compiled.update?.map part).getD ∅).merge ((compiled.condition?.map part).getD ∅)

theorem mem_keys_merged (compiled : CompiledUpdate) (placeholder : String) :
    placeholder ∈ (compiled.merged part).keys ↔
      ∃ fragment ∈ compiled.fragments, placeholder ∈ (part fragment).keys := by
  obtain ⟨update?, condition?⟩ := compiled
  rw [merged, Dict.mem_keys_merge, fragments]
  cases update? <;> cases condition? <;> simp

theorem exists_of_get?_merged {compiled : CompiledUpdate} {placeholder : String} {entry : α}
    (h : (compiled.merged part).get? placeholder = some entry) :
    ∃ fragment ∈ compiled.fragments, (part fragment).get? placeholder = some entry := by
  obtain ⟨update?, condition?⟩ := compiled
  rw [merged, Dict.get?_merge] at h
  rw [fragments]
  rcases Option.or_eq_some_iff.mp h with h | ⟨-, h⟩
  · cases condition? with
    | none => cases h
    | some condition => exact ⟨condition, by simp, h⟩
  · cases update? with
    | none => cases h
    | some update => exact ⟨update, by simp, h⟩

/-- Expressions that agree with a dictionary agree with it when they are taken together. -/
theorem get?_merged_eq {compiled : CompiledUpdate} {entries : Dict α}
    (h : ∀ fragment ∈ compiled.fragments, ∀ {placeholder entry},
      (part fragment).get? placeholder = some entry → entries.get? placeholder = some entry)
    {fragment : Fragment} (hmem : fragment ∈ compiled.fragments) {placeholder : String}
    (hp : placeholder ∈ (part fragment).keys) :
    (compiled.merged part).get? placeholder = entries.get? placeholder := by
  obtain ⟨entry, hentry⟩ := (Dict.mem_keys_iff ..).mp
    ((compiled.mem_keys_merged part placeholder).mpr ⟨fragment, hmem, hp⟩)
  obtain ⟨other, hother, hget⟩ := exists_of_get?_merged part hentry
  rw [hentry, h other hother hget]

/-- What each expression declares of what it mentions, they declare when taken together. -/
theorem mem_keys_merged_iff {compiled : CompiledUpdate} {placeholder : String} {P : Prop}
    (h : ∀ fragment ∈ compiled.fragments, placeholder ∈ (part fragment).keys ↔
      placeholder ∈ references fragment.text.toList ∧ P) :
    placeholder ∈ (compiled.merged part).keys ↔ placeholder ∈ compiled.mentioned ∧ P := by
  rw [mem_keys_merged, mentioned, List.mem_flatMap]
  constructor
  · rintro ⟨fragment, hmem, hp⟩
    obtain ⟨hp, hP⟩ := (h fragment hmem).mp hp
    exact ⟨⟨fragment, hmem, hp⟩, hP⟩
  · rintro ⟨⟨fragment, hmem, hp⟩, hP⟩
    exact ⟨fragment, hmem, (h fragment hmem).mpr ⟨hp, hP⟩⟩

end Parts

/-- **What a compiled update means.**  Its expressions, read through its dictionaries, are the
clauses of the surviving statements and the condition, and the dictionaries declare what the
expressions mention. -/
structure Means (compiled : CompiledUpdate) (update : Update) (condition? : Option Condition) :
    Prop where
  update_reads : Option.Rel (fun fragment written =>
    readText compiled.names compiled.values fragment.text = some written)
    compiled.update? (writtenUpdate? update.surviving)
  update_absent : compiled.update? = none ↔ update = []
  condition_reads : Option.Rel (fun fragment written =>
    readText compiled.names compiled.values fragment.text = some written)
    compiled.condition? (condition?.map Condition.written)
  names_declared : ∀ placeholder, placeholder ∈ compiled.names.keys ↔
    placeholder ∈ compiled.mentioned ∧ placeholder.toList.head? = some '#'
  values_declared : ∀ placeholder, placeholder ∈ compiled.values.keys ↔
    placeholder ∈ compiled.mentioned ∧ placeholder.toList.head? = some ':'

section Conveys

variable {compiled : CompiledUpdate} {ctx : Context}
  (h : ∀ fragment ∈ compiled.fragments, ∃ written, fragment.Conveys ctx written)
  (hform : ctx.Formed IsName IsValue)

include h hform

/-- An expression may be read through the dictionaries of all. -/
theorem readText_eq {fragment : Fragment} (hmem : fragment ∈ compiled.fragments)
    {written : List Piece} (hconveys : fragment.Conveys ctx written) :
    readText compiled.names compiled.values fragment.text = some written := by
  apply hconveys.readText_eq hform
  · intro placeholder hp
    refine get?_merged_eq Fragment.names (fun other hother => ?_) hmem hp
    obtain ⟨_, hother⟩ := h other hother
    exact hother.names
  · intro placeholder hp
    refine get?_merged_eq Fragment.values (fun other hother => ?_) hmem hp
    obtain ⟨_, hother⟩ := h other hother
    exact hother.values

theorem mem_names_iff_mentioned (placeholder : String) : placeholder ∈ compiled.names.keys ↔
    placeholder ∈ compiled.mentioned ∧ placeholder.toList.head? = some '#' := by
  apply mem_keys_merged_iff Fragment.names
  intro fragment hmem
  obtain ⟨_, hconveys⟩ := h fragment hmem
  exact hconveys.mem_names_iff hform placeholder

theorem mem_values_iff_mentioned (placeholder : String) : placeholder ∈ compiled.values.keys ↔
    placeholder ∈ compiled.mentioned ∧ placeholder.toList.head? = some ':' := by
  apply mem_keys_merged_iff Fragment.values
  intro fragment hmem
  obtain ⟨_, hconveys⟩ := h fragment hmem
  exact hconveys.mem_values_iff hform placeholder

end Conveys

end CompiledUpdate

/-! ## Updates without statements -/

/-- **Only an update without statements has no expression.** -/
theorem updateFragment?_eq_none_iff (statements : List ResolvedStatement) :
    updateFragment? statements = none ↔ statements = [] := by
  constructor
  · intro h
    cases statements with
    | nil => rfl
    | cons statement rest =>
      -- The clause of the first statement is there.
      obtain ⟨fragment, hfragment⟩ := exists_clauseFragment?
        (List.mem_cons_self : statement ∈ statement :: rest)
      have hmem : fragment ∈ Clause.all.filterMap (clauseFragment? (statement :: rest)) :=
        List.mem_filterMap.mpr ⟨_, statement.action.clause.mem_all, hfragment⟩
      rw [updateFragment?] at h
      split at h
      · next hempty =>
        rw [List.isEmpty_iff.mp hempty] at hmem
        cases hmem
      · cases h
  · rintro rfl
    rfl

/-! ## The meaning of an update -/

/-- **A compiled update means the surviving statements.**  In any reached context, an update and a
condition without fixed text that compile read as they were written: the clauses `SET`, `ADD`,
`REMOVE` and `DELETE`, as far as there are statements for them, with the last statement on each
target in the order of the first ones.  There is no expression only if there is no statement, and
what only an overwritten statement bound is not declared. -/
theorem Update.compile_means {ctx ctx' : Context} (hctx : ctx.Reached) (update : Update)
    (condition? : Option Condition) (hfree : ∀ condition ∈ condition?, condition.FixedFree)
    (compiled : CompiledUpdate)
    (h : (update.compile family of condition?).runOn ctx = (.ok compiled, ctx')) :
    compiled.Means update condition? := by
  have hspec : Compile.Spec Context.Sound (update.compile family of condition?) _ :=
    update.compile_spec Context.stable_sound condition? fun condition hc =>
      (hfree condition hc).admits _
  have hsound : ctx'.Sound := by
    have hkeeps := hspec.keeps hctx.sound
    rwa [h] at hkeeps
  obtain ⟨statements, resolved?, rfl, rfl, rfl, hstatements, hconditions⟩ :=
    hspec.result hctx.sound h
  have hleaves := hstatements.onLeaves_conveys hsound.linked hsound.formed
  -- The targets are told apart by their texts, which are those of the paths as written.
  have hliteral : ∀ statement ∈ statements,
      statement.target.path.literal = .ok statement.target.literal := by
    intro statement hs
    refine (hstatements.paths statement.target ?_).literal
    exact List.mem_flatMap.mpr ⟨statement, hs, by simp [StatementOn.paths]⟩
  have hupdate : Option.Rel (Fragment.Conveys ctx') (updateFragment? (survivors statements))
      (writtenUpdate? (Update.surviving (statements.map ResolvedStatement.source))) := by
    -- Only survivors are composed; their leaves are among those of all statements.
    rw [← map_source_survivors hliteral]
    apply (compositional_conveys ctx').update
    intro statement hs
    exact hleaves.ofStatement (mem_of_mem_survivors hs)
  have hcondition : Option.Rel (Fragment.Conveys ctx')
      (resolved?.map ResolvedCondition.fragment)
      ((resolved?.map ResolvedCondition.source).map Condition.written) := by
    cases resolved? with
    | none => exact .none
    | some resolved =>
      have hfixed : resolved.fixedTexts = [] := by
        have hsource := hfree _ rfl
        rwa [ConditionTree.FixedFree, ResolvedCondition.source, ConditionTree.fixedTexts_map]
          at hsource
      have hresolved := (hconditions resolved rfl).onLeaves_conveys hsound.linked hsound.formed
      exact .some ((compositional_conveys ctx').condition resolved (hfixed ▸ hresolved))
  have hconveys : ∀ fragment ∈ CompiledUpdate.fragments ⟨updateFragment? (survivors statements),
      resolved?.map ResolvedCondition.fragment⟩, ∃ written, fragment.Conveys ctx' written := by
    intro fragment hmem
    rcases List.mem_append.mp hmem with hmem | hmem
    · exact exists_of_rel hupdate (Option.mem_toList.mp hmem)
    · exact exists_of_rel hcondition (Option.mem_toList.mp hmem)
  refine ⟨rel_of_rel hupdate fun fragment hmem written hw => ?_, ?_,
    rel_of_rel hcondition fun fragment hmem written hw => ?_,
    CompiledUpdate.mem_names_iff_mentioned hconveys hsound.formed,
    CompiledUpdate.mem_values_iff_mentioned hconveys hsound.formed⟩
  · refine CompiledUpdate.readText_eq hconveys hsound.formed ?_ hw
    exact List.mem_append_left _ (Option.mem_toList.mpr hmem)
  · rw [updateFragment?_eq_none_iff, survivors_eq, lastOfEach_eq_nil_iff, List.map_eq_nil_iff]
  · refine CompiledUpdate.readText_eq hconveys hsound.formed ?_ hw
    exact List.mem_append_right _ (Option.mem_toList.mpr hmem)

/-- The age is first added to and then removed, the name is first overwritten and then kept. -/
theorem Update.compile_means_overwritten :
    let update : Update := [
      ⟨.ofName "age", .add (.constant (.number "1"))⟩,
      ⟨.ofName "name", .set (.constant (.string "x")) true⟩,
      ⟨.ofName "age", .remove⟩,
      ⟨.ofName "name", .set (.path ((Path.ofName "mentor").field "name")) false⟩]
    let condition : Condition := .compare (.ofName "id") .ne (.string "x")
    ∃ compiled ctx',
      (update.compile persons 0 (some condition)).runOn (.fresh "ABC") = (.ok compiled, ctx') ∧
      compiled.update?.map Fragment.text =
        some "SET #C = if_not_exists(#C, #AB.#C) REMOVE #A" ∧
      compiled.condition?.map Fragment.text = some "#AC <> :BA" ∧
      compiled.Means update (some condition) := by
  intro update condition
  have htexts : ((update.compile persons 0 (some condition)).runOn (.fresh "ABC")).1.toOption.map
      (fun compiled =>
        (compiled.update?.map Fragment.text, compiled.condition?.map Fragment.text)) =
      some (some "SET #C = if_not_exists(#C, #AB.#C) REMOVE #A", some "#AC <> :BA") := by
    decide +kernel
  obtain ⟨compiled, ctx', hrun, htexts⟩ := Compile.exists_of_toOption htexts
  have hfree : ∀ c ∈ some condition, c.FixedFree := by
    rintro _ ⟨⟩
    decide
  have hmeans := Update.compile_means (.fresh "ABC") update (some condition) hfree compiled hrun
  exact ⟨compiled, ctx', hrun, congrArg Prod.fst htexts, congrArg Prod.snd htexts, hmeans⟩

end DocExpr
