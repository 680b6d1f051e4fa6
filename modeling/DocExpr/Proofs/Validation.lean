import DocExpr.Proofs.ConditionMeaning
import DocExpr.Proofs.Survivors
import DocExpr.Table

/-!
# Validation never rejects what was compiled

A request is checked against its own expressions: each mentioned placeholder has to be declared and
each declared one mentioned.  Compiled fragments are exact, and so is what is put together from
them, so the check is one that compiled requests pass.  Text written by a caller is the exception
that proves the rule: it is taken as it is, and has to pass the check on its own.

The check can then be left out.  No operation tells whether it was made.

## Main definitions

* `Context.Checked`: the invariant of a request, whose placeholders a reader takes as a whole
* `Table.Call`: the operations of a table with what they are given
* `Table.withValidation`: the table with the check or without

## Main results

* `checkPlaceholders_eq_ok_iff`: what the check finds
* `Table.finish_withValidation`: exact fragments pass
* `Table.validation_never_rejects`: an operation yields the same with the check and without
-/

namespace DocExpr

variable {n : Nat} {family : Family n} {of : Fin n}

/-! ## The check -/

theorem Ordered.least?_eq_none_iff (l : List String) : Ordered.least? l = none ↔ l = [] := by
  constructor
  · intro h
    cases l with
    | nil => rfl
    | cons x rest =>
      rw [Ordered.least?] at h
      split at h
      · cases h
      · split at h <;> cases h
  · rintro rfl
    rfl

/-- **The check passes when the mentioned placeholders are the declared ones.** -/
theorem checkPlaceholders_eq_ok_iff (expressions : List String) (names : Dict String)
    (values : Dict AttributeValue) :
    checkPlaceholders expressions names values = .ok () ↔
      ∀ placeholder, (∃ expression ∈ expressions, placeholder ∈ references expression.toList) ↔
        placeholder ∈ names.keys ∨ placeholder ∈ values.keys := by
  have hmentioned : ∀ placeholder,
      (placeholder ∈ expressions.flatMap fun expression => references expression.toList) ↔
        ∃ expression ∈ expressions, placeholder ∈ references expression.toList :=
    fun placeholder => List.mem_flatMap
  simp only [← hmentioned]
  dsimp only [checkPlaceholders]
  generalize expressions.flatMap (fun expression => references expression.toList) = mentioned
  -- Neither list of faults may have a least member.
  have hundeclared : Ordered.least? (mentioned.filter fun placeholder =>
      !names.contains placeholder && !values.contains placeholder) = none ↔
        ∀ placeholder ∈ mentioned, placeholder ∈ names.keys ∨ placeholder ∈ values.keys := by
    rw [Ordered.least?_eq_none_iff, List.filter_eq_nil_iff]
    refine forall₂_congr fun placeholder _ => ?_
    rw [← Dict.contains_iff, ← Dict.contains_iff]
    cases names.contains placeholder <;> cases values.contains placeholder <;> simp
  have hunused : Ordered.least? ((names.keys ++ values.keys).filter fun placeholder =>
      placeholder ∉ mentioned) = none ↔
        ∀ placeholder, placeholder ∈ names.keys ∨ placeholder ∈ values.keys →
          placeholder ∈ mentioned := by
    rw [Ordered.least?_eq_none_iff, List.filter_eq_nil_iff]
    refine forall_congr' fun placeholder => ?_
    rw [List.mem_append, decide_eq_true_eq, not_not]
  constructor
  · intro h
    split at h
    · cases h
    · next hnone =>
      split at h
      · cases h
      · next hnone' =>
        intro placeholder
        exact ⟨hundeclared.mp hnone placeholder, hunused.mp hnone' placeholder⟩
  · intro h
    rw [hundeclared.mpr fun placeholder => (h placeholder).mp]
    dsimp only
    rw [hunused.mpr fun placeholder => (h placeholder).mpr]

/-! ## Exact fragments -/

/-- Text that passes the check on its own is exact. -/
theorem exact_of_checkPlaceholders {text : Fragment}
    (h : checkPlaceholders [text.text] text.names text.values = .ok ()) : text.Exact := by
  intro placeholder
  rw [← (checkPlaceholders_eq_ok_iff ..).mp h placeholder]
  simp

namespace Context

/-- The placeholder of a field belongs to it, and a reader takes placeholders as a whole. -/
structure Checked (ctx : Context) : Prop where
  linked : ctx.Linked
  formed : ctx.Formed IsReference IsReference

theorem checked_fresh (alphabet : String) : (fresh alphabet).Checked :=
  ⟨nofun, ⟨nofun, nofun⟩⟩

theorem stable_checked : Stable Checked where
  linked h := h.linked
  bindName h hcode hbind :=
    ⟨Linked.bindName h.linked hbind,
      h.formed.bindName (fun token htoken => IsName.isReference ⟨token, htoken, rfl⟩) hcode hbind⟩
  bindValue h hbind :=
    ⟨Linked.bindValue h.linked hbind,
      h.formed.bindValue (fun token htoken => IsValue.isReference ⟨token, htoken, rfl⟩) hbind⟩

/-- What exact text declares it mentions, so a reader takes it as a whole. -/
theorem admits_checked {text : Fragment} (h : text.Exact) : Admits Checked text where
  reserveName hctx hp hreserve :=
    ⟨Linked.reserveName hctx.linked hreserve,
      hctx.formed.reserveName (isReference_of_mem ((h _).mpr (.inl hp))) hreserve⟩
  reserveValue hctx hp hreserve :=
    ⟨Linked.reserveValue hctx.linked hreserve,
      hctx.formed.reserveValue (isReference_of_mem ((h _).mpr (.inr hp))) hreserve⟩

end Context

open Compile (Spec)
open Context (Checked)

/-- Every text that a caller wrote in a condition is exact. -/
def Condition.ExactTexts (condition : Condition) : Prop :=
  ∀ text ∈ condition.fixedTexts, text.Exact

theorem ResolvedCondition.exact_fragment {ctx ctx' : Context} {resolved : ResolvedCondition}
    (h : Resolved ctx resolved.paths resolved.literals ctx') (hchecked : ctx'.Checked)
    (hfixed : resolved.source.ExactTexts) : resolved.fragment.Exact := by
  rw [Condition.ExactTexts, ResolvedCondition.source, ConditionTree.fixedTexts_map] at hfixed
  apply compositional_exact.condition resolved
  exact h.onLeaves_exact hchecked.linked hchecked.formed hfixed

/-- Exact texts are all that has to be asked of an optional condition. -/
theorem admits_of_exactTexts {condition? : Option Condition}
    (hfixed : ∀ condition ∈ condition?, condition.ExactTexts) :
    ∀ condition ∈ condition?, ∀ text ∈ condition.fixedTexts, Context.Admits Checked text :=
  fun condition hc text ht => Context.admits_checked (hfixed condition hc text ht)

theorem Condition.compile_exact (condition : Condition) (hfixed : condition.ExactTexts) :
    Spec Checked (condition.compile family of) fun _ fragment _ => fragment.Exact := by
  refine (condition.compile_spec Context.stable_checked fun text ht =>
    Context.admits_checked (hfixed text ht)).imp ?_
  rintro ctx _ ctx' - hchecked - ⟨resolved, rfl, rfl, hresolved⟩
  exact resolved.exact_fragment hresolved hchecked hfixed

theorem compileCondition?_exact (condition? : Option Condition)
    (hfixed : ∀ condition ∈ condition?, condition.ExactTexts) :
    Spec Checked (compileCondition? family of condition?) fun _ fragment? _ =>
      ∀ fragment ∈ fragment?, fragment.Exact := by
  refine (compileCondition?_spec Context.stable_checked condition?
    (admits_of_exactTexts hfixed)).imp ?_
  rintro ctx _ ctx' - hchecked - ⟨resolved?, rfl, rfl, hresolved⟩ fragment hfragment
  obtain ⟨resolved, hmem, rfl⟩ := Option.map_eq_some_iff.mp hfragment
  apply (resolved.exact_fragment (hresolved resolved hmem) hchecked)
  exact hfixed resolved.source (by rw [hmem]; rfl)

theorem compileProjection_exact (paths : List Path) :
    Spec Checked (compileProjection family of paths) fun _ fragment? _ =>
      ∀ fragment ∈ fragment?, fragment.Exact := by
  unfold compileProjection
  refine Spec.ite (fun _ => (Spec.pure none).imp ?_) fun _ =>
    ((resolvePaths_spec Context.stable_checked paths).bind fun _ _ => Spec.pure _).imp ?_
  · rintro ctx _ ctx' - - - ⟨rfl, -⟩ fragment hfragment
    cases hfragment
  · rintro ctx _ ctx' - hchecked - ⟨resolved, _, ⟨-, hresolved⟩, -, -, -, rfl, rfl⟩ _ ⟨⟩
    have hleaves : OnLeaves _ resolved [] [] :=
      hresolved.onLeaves_exact hchecked.linked hchecked.formed (by simp)
    -- A projection is a row of paths, so nothing but the paths has to be exact.
    have hparts : List.Forall₂ (fun fragment _ => fragment.Exact)
        (resolved.map ResolvedPath.fragment) (resolved.map fun path => path.path.written) := by
      rw [List.forall₂_map_left_iff, List.forall₂_map_right_iff, List.forall₂_same]
      exact hleaves.path
    exact compositional_exact.join ", " (by decide) hparts

theorem Update.compile_exact (update : Update) (condition? : Option Condition)
    (hfixed : ∀ condition ∈ condition?, condition.ExactTexts) :
    Spec Checked (update.compile family of condition?) fun _ compiled _ =>
      (∀ fragment ∈ compiled.update?, fragment.Exact) ∧
        ∀ fragment ∈ compiled.condition?, fragment.Exact := by
  refine (update.compile_spec Context.stable_checked condition?
    (admits_of_exactTexts hfixed)).imp ?_
  rintro ctx _ ctx' - hchecked - ⟨statements, resolved?, rfl, rfl, rfl, hstatements, hresolved⟩
  refine ⟨fun fragment hfragment => ?_, fun fragment hfragment => ?_⟩
  · -- The leaves of the survivors are among those of all statements.
    have hleaves : OnLeaves (fun fragment _ => fragment.Exact) _ _ [] :=
      hstatements.onLeaves_exact hchecked.linked hchecked.formed (by simp)
    have hupdate := compositional_exact.update fun statement hs =>
      hleaves.ofStatement (mem_of_mem_survivors hs)
    obtain ⟨-, hexact⟩ := exists_of_rel hupdate hfragment
    exact hexact
  · obtain ⟨resolved, hmem, rfl⟩ := Option.map_eq_some_iff.mp hfragment
    apply resolved.exact_fragment (hresolved resolved hmem) hchecked
    exact hfixed resolved.source (by rw [hmem]; rfl)

/-- The expressions of a request for all items, one after the other. -/
theorem compileScan_exact {filter? : Option Condition}
    (hfilter : ∀ condition ∈ filter?, condition.ExactTexts) (paths : List Path) :
    Spec Checked (do
      let filter ← compileCondition? family of filter?
      let projection ← compileProjection family of paths
      return (filter, projection)) fun _ compiled _ =>
        ∀ fragment? ∈ [compiled.1, compiled.2], ∀ fragment ∈ fragment?, fragment.Exact := by
  refine ((compileCondition?_exact filter? hfilter).bind fun _ _ =>
    (compileProjection_exact paths).bind fun _ _ => Spec.pure _).imp ?_
  rintro ctx _ ctx' - - - ⟨filter, _, hfilter, -, -, -, projection, _, hprojection, -, -, -, rfl, -⟩
  exact List.forall_mem_cons.mpr ⟨hfilter, List.forall_mem_singleton.mpr hprojection⟩

/-- The expressions of a request for the items under a key, one after the other. -/
theorem compileQuery_exact {keyCondition : Condition} (hkey : keyCondition.ExactTexts)
    {filter? : Option Condition} (hfilter : ∀ condition ∈ filter?, condition.ExactTexts)
    (paths : List Path) :
    Spec Checked (do
      let keyCondition ← keyCondition.compile family of
      let filter ← compileCondition? family of filter?
      let projection ← compileProjection family of paths
      return (keyCondition, filter, projection)) fun _ compiled _ =>
        ∀ fragment? ∈ [some compiled.1, compiled.2.1, compiled.2.2],
          ∀ fragment ∈ fragment?, fragment.Exact := by
  refine ((keyCondition.compile_exact hkey).bind fun _ _ =>
    (compileCondition?_exact filter? hfilter).bind fun _ _ =>
      (compileProjection_exact paths).bind fun _ _ => Spec.pure _).imp ?_
  rintro ctx _ ctx' - - - ⟨fragment, _, hfragment, -, -, -, filter, _, hfilter, -, -, -,
    projection, _, hprojection, -, -, -, rfl, -⟩
  refine List.forall_mem_cons.mpr ⟨?_, List.forall_mem_cons.mpr
    ⟨hfilter, List.forall_mem_singleton.mpr hprojection⟩⟩
  rintro _ ⟨⟩
  exact hfragment

/-! ## Requests -/

namespace Table

/-- The table with the check or without. -/
def withValidation (table : Table n) (validate : Bool) : Table n :=
  { table with config := { table.config with validate } }

/-- **Exact fragments pass**, so they are declared with the check and without. -/
theorem finish_withValidation (table : Table n) (validate : Bool)
    {fragments : List (Option Fragment)}
    (h : ∀ fragment? ∈ fragments, ∀ fragment ∈ fragment?, fragment.Exact) :
    (table.withValidation validate).finish fragments = .ok (declarations fragments) := by
  have htexts : fragments.filterMap text? = (fragments.filterMap id).map Fragment.text := by
    rw [List.map_filterMap]
    rfl
  have hexact : ∀ fragment ∈ fragments.filterMap id, fragment.Exact := by
    intro fragment hmem
    obtain ⟨fragment?, hfragment?, hfragment⟩ := List.mem_filterMap.mp hmem
    exact h fragment? hfragment? fragment hfragment
  -- Each placeholder is mentioned and declared by one and the same fragment.
  have hcheck : checkPlaceholders (fragments.filterMap text?) (declarations fragments).names
      (declarations fragments).values = .ok () := by
    rw [checkPlaceholders_eq_ok_iff]
    intro placeholder
    rw [declarations, Fragment.mem_names_join, Fragment.mem_values_join, htexts]
    simp only [List.mem_map, exists_exists_and_eq_and]
    constructor
    · rintro ⟨fragment, hmem, hp⟩
      rcases (hexact fragment hmem placeholder).mp hp with hp | hp
      · exact .inl ⟨fragment, hmem, hp⟩
      · exact .inr ⟨fragment, hmem, hp⟩
    · rintro (⟨fragment, hmem, hp⟩ | ⟨fragment, hmem, hp⟩)
      · exact ⟨fragment, hmem, (hexact fragment hmem placeholder).mpr (.inl hp)⟩
      · exact ⟨fragment, hmem, (hexact fragment hmem placeholder).mpr (.inr hp)⟩
  rw [finish]
  cases validate with
  | false => rfl
  | true =>
    have hvalidate : (table.withValidation true).config.validate = true := rfl
    rw [if_pos hvalidate, hcheck]
    rfl

/-- A request declares exact fragments, whatever its configuration. -/
theorem finish_eq_ok (table : Table n) {fragments : List (Option Fragment)}
    (h : ∀ fragment? ∈ fragments, ∀ fragment ∈ fragment?, fragment.Exact) :
    table.finish fragments = .ok (declarations fragments) :=
  table.finish_withValidation table.config.validate h

/-- Whether the check is made cannot be told from exact fragments. -/
theorem finish_congr (table : Table n) (fragments : List (Option Fragment))
    (h : ∀ fragment? ∈ fragments, ∀ fragment ∈ fragment?, fragment.Exact) :
    (table.withValidation true).finish fragments =
      (table.withValidation false).finish fragments := by
  rw [finish_withValidation table true h, finish_withValidation table false h]

/-- What is done with an expression only has to agree on those that can be compiled. -/
theorem run_bind_congr {α β : Type} (table : Table n) {computation : Compile α} {P : α → Prop}
    (hspec : Spec Checked computation fun _ a _ => P a)
    {next next' : α → Except ExpressionError β} (h : ∀ a, P a → next a = next' a) :
    table.run computation >>= next = table.run computation >>= next' := by
  cases hrun : table.run computation with
  | error e => rfl
  | ok a =>
    obtain ⟨ctx', -, hP⟩ := hspec.runFresh (Context.checked_fresh _) hrun
    exact h a hP

/-- What a request compiles, it compiles on a fresh context. -/
theorem exists_of_run {α : Type} {table : Table n} {computation : Compile α} {a : α}
    (h : table.run computation = .ok a) :
    ∃ ctx, computation.runOn (.fresh table.config.alphabet) = (.ok a, ctx) :=
  Compile.runFresh_eq_ok_iff.mp h

/-- The check does not touch what a request declares. -/
theorem eq_declarations_of_finish {table : Table n} {fragments : List (Option Fragment)}
    {declared : Fragment} (h : table.finish fragments = .ok declared) :
    declared = declarations fragments := by
  rw [finish] at h
  split at h
  · cases hcheck : checkPlaceholders (fragments.filterMap text?) (declarations fragments).names
      (declarations fragments).values with
    | error e => rw [hcheck] at h; cases h
    | ok => rw [hcheck] at h; cases h; rfl
  · cases h
    rfl

/-- An operation of a table and what it is given. -/
inductive Call where
  | read (record : Record) (options : ReadOptions)
  | put (record : Record) (condition : Option Condition)
  | delete (record : Record) (condition : Option Condition)
  | update (record : Record) (statements : Update) (condition : Option Condition)
  | save (record : Record) (condition : Option Condition)
  | scan (options : ScanOptions)
  | query (options : QueryOptions)

namespace Call

/-- The conditions that an operation is given. -/
def conditions : Call → List Condition
  | read .. => []
  | put _ condition | delete _ condition | update _ _ condition | save _ condition =>
    condition.toList
  | scan options => options.filter.toList
  | query options => options.keyCondition :: options.filter.toList

/-- The request that an operation makes. -/
def run (table : Table n) : Call → Except ExpressionError Request
  | read record options => .getItem <$> table.read record options
  | put record condition => .putItem <$> table.put record condition
  | delete record condition => .deleteItem <$> table.delete record condition
  | update record statements condition => .updateItem <$> table.update record statements condition
  | save record condition => .updateItem <$> table.save record condition
  | scan options => .scan <$> table.scan options
  | query options => .query <$> table.query options

end Call

theorem update_congr (table : Table n) (record : Record) (update : Update)
    {condition? : Option Condition} (hfixed : ∀ condition ∈ condition?, condition.ExactTexts) :
    (table.withValidation true).update record update condition? =
      (table.withValidation false).update record update condition? := by
  refine table.run_bind_congr (update.compile_exact condition? hfixed) fun compiled hexact => ?_
  rw [table.finish_congr [compiled.update?, compiled.condition?] (by simpa using hexact)]
  rfl

/-- **The check never rejects what was compiled.**  If each text that a caller wrote in a condition
passes the check on its own, an operation yields the same request, or fails with the same error,
with the check and without. -/
theorem validation_never_rejects (table : Table n) (call : Call)
    (hfixed : ∀ condition ∈ call.conditions, ∀ text ∈ condition.fixedTexts,
      checkPlaceholders [text.text] text.names text.values = .ok ()) :
    call.run (table.withValidation true) = call.run (table.withValidation false) := by
  have htexts : ∀ condition ∈ call.conditions, condition.ExactTexts :=
    fun condition hc text ht => exact_of_checkPlaceholders (hfixed condition hc text ht)
  have hcondition : ∀ {condition? : Option Condition}, condition?.toList = call.conditions →
      ∀ condition ∈ condition?, condition.ExactTexts := by
    intro condition? hsame condition hmem
    apply htexts
    rw [← hsame]
    exact Option.mem_toList.mpr hmem
  cases call with
  | read record options =>
    refine congrArg (Request.getItem <$> ·) (table.run_bind_congr
      (compileProjection_exact options.projection) fun projection hexact => ?_)
    rw [table.finish_congr [projection] (by simpa using hexact)]
    rfl
  | put record condition? =>
    refine congrArg (Request.putItem <$> ·) (table.run_bind_congr
      (compileCondition?_exact condition? (hcondition rfl)) fun fragment? hexact => ?_)
    rw [table.finish_congr [fragment?] (by simpa using hexact)]
    rfl
  | delete record condition? =>
    refine congrArg (Request.deleteItem <$> ·) (table.run_bind_congr
      (compileCondition?_exact condition? (hcondition rfl)) fun fragment? hexact => ?_)
    rw [table.finish_congr [fragment?] (by simpa using hexact)]
    rfl
  | update record statements condition? =>
    exact congrArg (Request.updateItem <$> ·)
      (table.update_congr record statements (hcondition rfl))
  | save record condition? =>
    refine congrArg (Request.updateItem <$> ·) ?_
    show (table.family.derive table.of record).mapError ExpressionError.mapping >>=
        (fun update => (table.withValidation true).update record update condition?) =
      (table.family.derive table.of record).mapError ExpressionError.mapping >>=
        fun update => (table.withValidation false).update record update condition?
    -- The statements are derived before anything is compiled.
    cases (table.family.derive table.of record).mapError ExpressionError.mapping with
    | error e => rfl
    | ok update => exact table.update_congr record update (hcondition rfl)
  | scan options =>
    refine congrArg (Request.scan <$> ·) (table.run_bind_congr
      (compileScan_exact (hcondition rfl) options.projection) ?_)
    rintro ⟨filter, projection⟩ hexact
    dsimp only
    rw [table.finish_congr [filter, projection] hexact]
    rfl
  | query options =>
    obtain ⟨hkey, hfilter⟩ := List.forall_mem_cons.mp htexts
    refine congrArg (Request.query <$> ·) (table.run_bind_congr
      (compileQuery_exact hkey (by simpa using hfilter) options.projection) ?_)
    rintro ⟨keyCondition, filter, projection⟩ hexact
    dsimp only
    rw [table.finish_congr [some keyCondition, filter, projection] hexact]
    rfl

/-- A caller's text beside a condition with a placeholder of its own, which has to keep clear of the
ones in the text. -/
theorem validation_never_rejects_fixed :
    let table : Table 1 := { name := "people", family := persons, of := 0, config := ⟨"BC", true⟩ }
    let text : Condition :=
      .fixed "size(#B) > :C" (.singleton "#B" "name") (.singleton ":C" (.number "3"))
    let call : Call := .query {
      keyCondition := .compare (.ofName "id") .eq (.string "x")
      filter := some (.group .and [.not text, .existence (.ofName "age") true]) }
    (∃ request, call.run (table.withValidation true) = .ok request) ∧
      call.run (table.withValidation true) = call.run (table.withValidation false) := by
  intro table text call
  have hfixed : ∀ condition ∈ call.conditions, ∀ text ∈ condition.fixedTexts,
      checkPlaceholders [text.text] text.names text.values = .ok () := by
    decide +kernel
  have hrun : (call.run (table.withValidation true)).toOption.isSome = true := by decide +kernel
  refine ⟨?_, validation_never_rejects table call hfixed⟩
  cases hrequest : call.run (table.withValidation true) with
  | ok request => exact ⟨request, rfl⟩
  | error e =>
    rw [hrequest] at hrun
    cases hrun

end Table

end DocExpr
