import DocExpr.Proofs.Acceptance
import DocExpr.Proofs.Errors
import DocExpr.Proofs.Merging
import DocExpr.Proofs.SchemaWalk

/-!
# The key of an item is never written

A statement is refused because of a flag: when its target is resolved, the first declaration on the
way tells whether it belongs to the key.  What is written in the end is decided elsewhere.  Names
are interned, so a field of the key and a field of a nested entity that have one name share a
placeholder; short codes are taken, and of the statements on one place only the last is printed.

The two agree nevertheless.  A target that is printed reads, through the names that the expressions
declare, as the path that was resolved, and this path does not start at the key.  In the other
direction, nothing but a target is refused for the sake of the key, and of a target nothing but the
first segment counts: a field of a nested entity may be updated, whatever it is to that entity.

## Main definitions

* `Family.StartsOffKey`, `Family.ReadsFromKey`: where a path starts, and where a text does
* `CompiledUpdate.SparesKey`: an update that compiled writes no field of the key
* `Update.FailsAtKey`: the first statement that fails has a target that starts at the key

## Main results

* `Statement.runOn_resolve_eq_keyUpdate_iff`: the one place where the error comes from
* `Update.names_agree`: the names that are declared are those of the last context
* `Update.sparesKey_of_compile`, `Update.runOn_compile_eq_keyUpdate_iff`: updates that compile, and
  those that fail for the sake of the key
* `Update.key_never_written`: no field of the key is written, and only such fields are refused
-/

namespace DocExpr

variable {n : Nat} {family : Family n} {of : Fin n}

open Compile (Raises)
open Context (bindValue_raises)
open ExpressionError (Keyless)

/-! ## Where a path starts -/

namespace Family

/-- Whether the first segment is a field outside the key. -/
def StartsOffKey (family : Family n) (of : Fin n) (segments : List Segment) : Prop :=
  ∃ field ∈ (family of).fields, field.isKey = false ∧ segments.head? = some (.field field.name)

/-- Whether the first of some pieces is the name of a field of the key. -/
def ReadsFromKey (family : Family n) (of : Fin n) (written : List Piece) : Prop :=
  ∃ field ∈ (family of).fields, field.isKey = true ∧ written.head? = some (.name field.name)

theorem StartsOffKey.not_startsAtKey {segments : List Segment}
    (h : family.StartsOffKey of segments) : ¬family.StartsAtKey of segments := by
  obtain ⟨field, hfield, hkey, hhead⟩ := h
  obtain ⟨rest, rfl⟩ := List.head?_eq_some_iff.mp hhead
  rw [startsAtKey_iff hfield, hkey]
  decide

/-- What a path is written as starts where the path does. -/
theorem readsFromKey_written_iff {path : Path} :
    family.ReadsFromKey of path.written ↔ family.StartsAtKey of path.segments := by
  rw [ReadsFromKey, StartsAtKey, Path.written]
  cases path.segments with
  | nil => simp [writtenSteps]
  | cons segment rest =>
    cases segment with
    | field name => simp
    | index ordinal => simp [writtenSteps, Piece.ofText]

end Family

namespace Path

variable {path : Path} {ctx ctx' : Context} {resolved : ResolvedPath}

/-- The flag of a path that resolves tells whether it starts at the key. -/
theorem rootIsKey_iff_of_resolve (h : (path.resolve family of).runOn ctx = (.ok resolved, ctx')) :
    resolved.rootIsKey = true ↔ family.StartsAtKey of path.segments := by
  -- The path starts at a name, and the first declaration on the way is that of this name.
  obtain ⟨hliteral, fields, place, hwalk, -, hroot⟩ := walk_of_resolve h
  obtain ⟨name, rest, hfirst⟩ := exists_field_of_literal hliteral
  rw [hfirst] at hwalk
  obtain ⟨field, hfield, rfl, hhead⟩ := Family.walk_root_eq_ok hwalk
  rw [hroot, hhead, hfirst, Family.startsAtKey_iff hfield]
  rfl

end Path

/-! ## Statements -/

/-- What is left of a statement when its target may be updated. -/
def resolveAction (family : Family n) (of : Fin n) (target : ResolvedPath) :
    Action Path AttributeValue → Compile (Action ResolvedPath BoundValue)
  | .set value overwrite => do
    let value ← resolveExpr family of target.bindOperand value
    return .set value overwrite
  | .add value => do
    let value ← resolveExpr family of Compile.bindValue value
    return .add value
  | .remove => return .remove
  | .delete value => do
    let value ← resolveExpr family of Compile.bindValue value
    return .delete value

theorem resolveAction_raises (target : ResolvedPath) (action : Action Path AttributeValue) :
    Raises Keyless (resolveAction family of target action) := by
  cases action with
  | set value overwrite =>
    exact (resolveExpr_raises target.bindOperand_raises value).bind fun _ => .pure _
  | add value | delete value =>
    exact (resolveExpr_raises bindValue_raises value).bind fun _ => .pure _
  | remove => exact .pure _

namespace Statement

variable {statement : Statement} {ctx ctx' : Context}

/-- A statement is refused between its target and its value. -/
theorem resolve_eq (statement : Statement) : statement.resolve family of = do
    let target ← statement.target.resolve family of
    if target.rootIsKey then throw (.keyUpdate target.literal)
    else do
      let action ← resolveAction family of target statement.action
      return ⟨target, action⟩ := by
  obtain ⟨path, action⟩ := statement
  unfold Statement.resolve
  refine bind_congr fun target => ?_
  cases action
  all_goals
    by_cases hroot : target.rootIsKey = true
    · simp only [if_pos hroot]
      rfl
    · simp only [if_neg hroot, resolveAction, bind_assoc, pure_bind]

/-- **The error about the key comes from one place**: the target resolves, and it starts at the key.
Nothing is bound after the target. -/
theorem runOn_resolve_eq_keyUpdate_iff {literal : String} :
    (statement.resolve family of).runOn ctx = (.error (.keyUpdate literal), ctx') ↔
      ∃ target, (statement.target.resolve family of).runOn ctx = (.ok target, ctx') ∧
        family.StartsAtKey of statement.target.segments ∧
          statement.target.literal = .ok literal := by
  rw [resolve_eq, Compile.runOn_bind_eq_error_iff]
  constructor
  · -- Neither resolving the target nor what comes after the check has this error.
    rintro (htarget | ⟨target, mid, htarget, h⟩)
    · exact (statement.target.resolve_raises htarget).elim
    · split at h
      · next hroot =>
        cases h
        exact ⟨target, htarget, (Path.rootIsKey_iff_of_resolve htarget).mp hroot,
          (Path.walk_of_resolve htarget).1⟩
      · rcases Compile.runOn_bind_eq_error_iff.mp h with h | ⟨action, _, -, hpure⟩
        · exact (resolveAction_raises target statement.action h).elim
        · cases hpure
  · rintro ⟨target, htarget, hkey, hliteral⟩
    refine .inr ⟨target, ctx', htarget, ?_⟩
    rw [if_pos ((Path.rootIsKey_iff_of_resolve htarget).mpr hkey), Compile.runOn_throw]
    obtain rfl : target.literal = literal :=
      Except.ok.inj ((Path.walk_of_resolve htarget).1.symm.trans hliteral)
    rfl

/-- The target of a statement that resolves does not start at the key. -/
theorem not_startsAtKey_of_resolve {resolved : ResolvedStatement}
    (h : (statement.resolve family of).runOn ctx = (.ok resolved, ctx')) :
    ¬family.StartsAtKey of statement.target.segments := by
  intro hkey
  rw [resolve_eq] at h
  obtain ⟨target, mid, htarget, h⟩ := Compile.runOn_bind_eq_ok_iff.mp h
  rw [if_pos ((Path.rootIsKey_iff_of_resolve htarget).mpr hkey), Compile.runOn_throw] at h
  cases h

/-- A statement whose target starts outside the key passes the check for the key. -/
theorem checks_hold (hstart : family.StartsOffKey of statement.target.segments)
    (hothers : ∀ check ∈ statement.checks, check ≠ .updatable statement.target →
      check.Holds family of) : ∀ check ∈ statement.checks, check.Holds family of := by
  intro check hcheck
  by_cases hkey : check = .updatable statement.target
  · subst hkey
    exact hstart.not_startsAtKey
  · exact hothers check hcheck hkey

end Statement

/-! ## What the expressions declare -/

/-- The names of a text are those that a context gives. -/
def Fragment.OwnsNames (text : Fragment) (ctx : Context) : Prop :=
  ∀ {placeholder field : String}, text.names.get? placeholder = some field →
    ctx.owners.get? placeholder = some field

theorem Fragment.lasting_ownsNames : Lasting OwnsNames := fun _ _ _ hle h _ _ hp =>
  hle.owners (h hp)

namespace Update

variable {update : Update} {condition? : Option Condition} {ctx ctx' : Context}
  {compiled : CompiledUpdate}

/-- Compiling keeps fields and placeholders together. -/
theorem linked_after (hlinked : ctx.Linked)
    (h : (update.compile family of condition?).runOn ctx = (.ok compiled, ctx')) : ctx'.Linked := by
  have hkeeps : ((update.compile family of condition?).runOn ctx).2.Linked :=
    (update.compile_spec Context.stable_linked condition? fun _ _ text _ =>
      Context.admits_linked text).keeps hlinked
  rwa [h] at hkeeps

/-- **The names that are declared are those of the last context**, also where the caller wrote some
of them. -/
theorem names_agree (hlinked : ctx.Linked)
    (h : (update.compile family of condition?).runOn ctx = (.ok compiled, ctx'))
    {placeholder field : String} (hp : compiled.names.get? placeholder = some field) :
    ctx'.owners.get? placeholder = some field := by
  obtain ⟨parts, hrun, hgather⟩ := exists_prepared h
  have hleaves : compiled.meanings.Gathers
      ((PreparedPart.printed parts).flatMap PreparedPart.leaves) :=
    (CompiledUpdate.meanings_gathers hgather).trans (.flatMap fun part _ => part.gathers)
  obtain ⟨leaf, hleaf, hp⟩ := hleaves.exists_name hp
  obtain ⟨part, hpart, hleaf⟩ := List.mem_flatMap.mp hleaf
  replace hpart := PreparedPart.printed_subset parts hpart
  obtain ⟨htexts, hresolved⟩ := (SourcePart.prepareAll_resolves Context.stable_linked
    fun _ _ => Context.admits_linked _).result hlinked hrun
  have hlinked' : ctx'.Linked := linked_after hlinked h
  -- A leaf is a path, a literal or a text of the caller; a literal declares no names.
  rcases List.mem_append.mp hleaf with hleaf | htext
  · rcases List.mem_append.mp hleaf with hpath | hliteral
    · obtain ⟨path, hmem, rfl⟩ := List.mem_map.mp hpath
      have hbound := hresolved.paths path (List.mem_flatMap.mpr ⟨part, hpart, hmem⟩)
      exact (hbound.agreesWith hlinked').names hp
    · obtain ⟨bound, -, rfl⟩ := List.mem_map.mp hliteral
      cases hp
  · have htext : leaf ∈ (update.parts condition?).flatMap Part.fixedTexts :=
      htexts ▸ List.mem_flatMap.mpr ⟨part, hpart, htext⟩
    exact (SourcePart.prepareAll_reserves Fragment.lasting_ownsNames fun text _ =>
      text.reserve_declares.imp fun _ _ _ hreserve => hreserve.1).result hlinked hrun leaf htext hp

end Update

/-- What a printed statement has as its target is declared. -/
theorem CompiledUpdate.mem_names_of_target {compiled : CompiledUpdate}
    {statements : List ResolvedStatement} (hupdate : compiled.update? = updateFragment? statements)
    {statement : ResolvedStatement} (hmem : statement ∈ statements) {placeholder : String}
    (hp : placeholder ∈ statement.target.fragment.names.keys) :
    placeholder ∈ compiled.names.keys := by
  -- There is an expression, since there is a statement.
  obtain ⟨fragment, hfragment⟩ : ∃ fragment, updateFragment? statements = some fragment := by
    rw [← Option.ne_none_iff_exists', ne_eq, updateFragment?_eq_none_iff]
    exact List.ne_nil_of_mem hmem
  have htarget : statement.target.fragment ∈ statement.leaves := by
    simp [ResolvedStatement.leaves, leafFragments, StatementOn.paths]
  refine (compiled.mem_keys_merged Fragment.names placeholder).mpr ⟨fragment, ?_, ?_⟩
  · simp [fragments, hupdate, hfragment]
  · exact (updateFragment?_gathers hfragment).names_subset _ (List.mem_map_of_mem hmem) _
      (statement.gathers.names_subset _ htarget _ hp)

/-! ## Updates -/

/-- An update that compiled writes no field of the key.  None of its statements is about one, and
the targets that are printed read, through the names that are declared, as paths that do not start
at one. -/
structure CompiledUpdate.SparesKey (family : Family n) (of : Fin n) (update : Update)
    (compiled : CompiledUpdate) : Prop where
  sources : ∀ statement ∈ update, ¬family.StartsAtKey of statement.target.segments
  targets : ∃ emitted : List ResolvedStatement, compiled.update? = updateFragment? emitted ∧
    emitted.map ResolvedStatement.source = update.surviving ∧
    ∀ statement ∈ emitted,
      readText compiled.names ∅ statement.target.fragment.text =
        some statement.target.path.written ∧
      ¬family.ReadsFromKey of statement.target.path.written

namespace Update

/-- The first statement that fails has a target that resolves and starts at the key; `literal` is
this target. -/
def FailsAtKey (family : Family n) (of : Fin n) (ctx : Context) (update : Update)
    (literal : String) : Prop :=
  ∃ before statement after resolved mid target last,
    update = before ++ statement :: after ∧
    (before.mapM (Statement.resolve family of)).runOn ctx = (.ok resolved, mid) ∧
    (statement.target.resolve family of).runOn mid = (.ok target, last) ∧
    family.StartsAtKey of statement.target.segments ∧ statement.target.literal = .ok literal

variable {update : Update} {condition? : Option Condition} {ctx ctx' : Context}

/-- **What compiles spares the key.** -/
theorem sparesKey_of_compile (hctx : ctx.Sound) {compiled : CompiledUpdate}
    (h : (update.compile family of condition?).runOn ctx = (.ok compiled, ctx')) :
    compiled.SparesKey family of update := by
  have hagree : ∀ {placeholder field}, compiled.names.get? placeholder = some field →
      ctx'.owners.get? placeholder = some field := names_agree hctx.linked h
  obtain ⟨statements, mid, hstatements, h⟩ := Compile.runOn_bind_eq_ok_iff.mp h
  obtain ⟨fragment?, _, hcondition, hpure⟩ := Compile.runOn_bind_eq_ok_iff.mp h
  cases hpure
  have hsources : ∀ statement ∈ update, ¬family.StartsAtKey of statement.target.segments := by
    intro statement hmem
    obtain ⟨_, _, _, hrun⟩ := Compile.exists_run_of_mapM hstatements statement hmem
    exact Statement.not_startsAtKey_of_resolve hrun
  -- The statements are resolved in a context of a program, the condition goes on from there.
  have hspec : Compile.Spec Context.Sound (update.mapM (Statement.resolve family of)) _ :=
    resolveStatements_spec Context.stable_sound update
  obtain ⟨rfl, hresolved⟩ := hspec.result hctx hstatements
  have hsound : mid.Sound := by
    have hkeeps := hspec.keeps hctx
    rwa [hstatements] at hkeeps
  have hle : mid ≤ ctx' := by
    have hgrows : mid ≤ ((compileCondition? family of condition?).runOn mid).2 :=
      (compileCondition?_spec Context.stable_linked condition? fun _ _ text _ =>
        Context.admits_linked text).grows hsound.linked
    rwa [hcondition] at hgrows
  have hbound : ∀ statement ∈ statements, statement.target.BoundIn mid := fun statement hmem =>
    hresolved.paths _ (List.mem_flatMap.mpr ⟨statement, hmem, by simp [StatementOn.paths]⟩)
  refine ⟨hsources, survivors statements, rfl,
    map_source_survivors fun statement hmem => (hbound statement hmem).literal, ?_⟩
  intro statement hemitted
  have hmem := mem_of_mem_survivors hemitted
  have hconveys : statement.target.fragment.Conveys mid statement.target.path.written :=
    (hresolved.onLeaves_conveys hsound.linked hsound.formed).path _
      (List.mem_flatMap.mpr ⟨statement, hmem, by simp [StatementOn.paths]⟩)
  refine ⟨hconveys.readText_eq hsound.formed (fun placeholder hp => ?_) ?_, ?_⟩
  · -- The placeholder is declared, and what is declared is what it had when it was resolved.
    obtain ⟨field, hfield⟩ := (Dict.mem_keys_iff ..).mp hp
    have hdeclared : placeholder ∈ (CompiledUpdate.names
        ⟨updateFragment? (survivors statements), fragment?⟩).keys :=
      CompiledUpdate.mem_names_of_target rfl hemitted hp
    obtain ⟨other, hother⟩ := (Dict.mem_keys_iff ..).mp hdeclared
    have hbefore := hconveys.names hfield
    rw [hother, hbefore, ← hagree hother, hle.owners hbefore]
  · rw [(hbound statement hmem).values]
    intro placeholder hp
    cases hp
  · rw [Family.readsFromKey_written_iff]
    exact hsources _ (List.mem_map_of_mem hmem)

/-- **Only the target of a statement is refused for the sake of the key**, and only if all
statements before it resolve. -/
theorem runOn_compile_eq_keyUpdate_iff {literal : String} :
    (∃ ctx', (update.compile family of condition?).runOn ctx =
      (.error (.keyUpdate literal), ctx')) ↔ update.FailsAtKey family of ctx literal := by
  constructor
  · rintro ⟨ctx', h⟩
    -- A condition does not fail for the sake of the key, so a statement does.
    rcases Compile.runOn_bind_eq_error_iff.mp h with h | ⟨_, _, -, h⟩
    · obtain ⟨before, statement, after, resolved, mid, hupdate, hbefore, hstatement⟩ :=
        Compile.runOn_mapM_eq_error_iff.mp h
      obtain ⟨target, htarget, hkey, hliteral⟩ :=
        Statement.runOn_resolve_eq_keyUpdate_iff.mp hstatement
      exact ⟨before, statement, after, resolved, mid, target, ctx', hupdate, hbefore, htarget, hkey,
        hliteral⟩
    · rcases Compile.runOn_bind_eq_error_iff.mp h with h | ⟨_, _, -, hpure⟩
      · exact (compileCondition?_raises condition? h).elim
      · cases hpure
  · rintro ⟨before, statement, after, resolved, mid, target, last, hupdate, hbefore, htarget, hkey,
      hliteral⟩
    have hstatement := Statement.runOn_resolve_eq_keyUpdate_iff.mpr
      ⟨target, htarget, hkey, hliteral⟩
    exact ⟨last, Compile.runOn_bind_eq_error_iff.mpr (.inl (Compile.runOn_mapM_eq_error_iff.mpr
      ⟨before, statement, after, resolved, mid, hupdate, hbefore, hstatement⟩))⟩

/-- **The key of an item is never written, and nothing else is protected.**  In any reached context,
of an update that compiles no statement is about a field of the key, not even one that is
overwritten later, and no printed target reads as a path that starts at such a field.  An update
fails for the sake of the key just if the first statement that fails has a target that starts there,
and the error has the literal form of this target.  A statement whose target starts at another field
is not refused, whatever fields come next: if all other checks hold, the update compiles. -/
theorem key_never_written (hctx : ctx.Reached) (family : Family n) (of : Fin n) (update : Update)
    (condition? : Option Condition) :
    (∀ compiled ctx', (update.compile family of condition?).runOn ctx = (.ok compiled, ctx') →
      compiled.SparesKey family of update) ∧
    (∀ literal, (∃ ctx', (update.compile family of condition?).runOn ctx =
      (.error (.keyUpdate literal), ctx')) ↔ update.FailsAtKey family of ctx literal) ∧
    (ctx.Usable →
      (∀ statement ∈ update, family.StartsOffKey of statement.target.segments ∧
        ∀ check ∈ statement.checks, check ≠ .updatable statement.target →
          check.Holds family of) →
      (∀ condition ∈ condition?, condition.FixedFree ∧
        ∀ check ∈ condition.checks, check.Holds family of) →
      ∃ compiled ctx', (update.compile family of condition?).runOn ctx = (.ok compiled, ctx')) := by
  refine ⟨fun compiled ctx' h => sparesKey_of_compile hctx.sound h,
    fun literal => runOn_compile_eq_keyUpdate_iff, fun husable hstatements hcondition => ?_⟩
  have hjudged : Compile.Judged family of (update.compile family of condition?) _ _ :=
    compile_judged update condition? fun condition hc => (hcondition condition hc).1
  refine (hjudged.outcome ⟨hctx.sound, husable⟩).1.mpr (List.forall_mem_append.mpr ⟨?_, ?_⟩)
  · intro check hcheck
    obtain ⟨statement, hmem, hcheck⟩ := List.mem_flatMap.mp hcheck
    obtain ⟨hstart, hothers⟩ := hstatements statement hmem
    exact statement.checks_hold hstart hothers check hcheck
  · cases condition? with
    | none => exact List.forall_mem_nil _
    | some condition => exact (hcondition condition rfl).2

/-- The identifier of a mentor has the name of the key and shares its placeholder, which the caller
uses as well; it may be updated, and the identifier of the person may not. -/
theorem key_never_written_mentor :
    let ctx := (((Path.ofName "id").resolve persons 0).runOn (.fresh "AB")).2
    let mentorId := (Path.ofName "mentor").field "id"
    let update : Update := [
      ⟨.ofName "age", .remove⟩,
      ⟨mentorId, .set (.constant (.string "x")) true⟩,
      ⟨.ofName "age", .set (.constant (.number "7")) true⟩]
    let condition : Condition := .fixed "attribute_exists(#A)" (.singleton "#A" "id") ∅
    (∃ compiled ctx',
      (update.compile persons 0 (some condition)).runOn ctx = (.ok compiled, ctx') ∧
      compiled.update?.map Fragment.text = some "SET #B = :BA, #AA.#A = :AB" ∧
      compiled.SparesKey persons 0 update) ∧
    (∃ ctx', (Update.compile persons 0 [⟨mentorId, .remove⟩, ⟨(Path.ofName "id").aliasOf, .remove⟩]
      (some condition)).runOn ctx = (.error (.keyUpdate "id"), ctx')) ∧
    ∃ compiled ctx',
      (Update.compile persons 0 [⟨mentorId, .remove⟩] none).runOn ctx = (.ok compiled, ctx') := by
  intro ctx mentorId update condition
  have hctx : ctx.Reached := .path persons 0 (.ofName "id") (.fresh "AB")
  have hid : (⟨"id", true, some "A", .scalar .string false⟩ : Field 1) ∈ (persons 0).fields := by
    decide
  refine ⟨?_, ?_, ?_⟩
  · have htext : ((update.compile persons 0 (some condition)).runOn ctx).1.toOption.map
        (fun compiled => compiled.update?.map Fragment.text) =
          some (some "SET #B = :BA, #AA.#A = :AB") := by
      decide +kernel
    obtain ⟨compiled, ctx', hrun, htext⟩ := Compile.exists_of_toOption htext
    exact ⟨compiled, ctx', hrun, htext,
      (key_never_written hctx persons 0 update (some condition)).1 compiled ctx' hrun⟩
  · refine ((key_never_written hctx persons 0 _ (some condition)).2.1 "id").mpr ?_
    let first : Compile (List ResolvedStatement) :=
      List.mapM (Statement.resolve persons 0) [⟨mentorId, .remove⟩]
    have hfirst : (first.runOn ctx).1.toOption.map List.length = some 1 := by decide +kernel
    have hsecond : (((Path.ofName "id").aliasOf.resolve persons 0).runOn
        (first.runOn ctx).2).1.toOption.map ResolvedPath.literal = some "id" := by
      decide +kernel
    obtain ⟨resolved, mid, hfirst, -⟩ := Compile.exists_of_toOption hfirst
    rw [hfirst] at hsecond
    obtain ⟨target, last, htarget, hliteral⟩ := Compile.exists_of_toOption hsecond
    have hwritten := (Path.walk_of_resolve htarget).1
    rw [hliteral] at hwritten
    exact ⟨[_], _, [], resolved, mid, target, last, rfl, hfirst, htarget, ⟨_, hid, rfl, rfl⟩,
      hwritten⟩
  · have hsymbols : (Alphabet.ofSymbols ctx.symbols).toOption.map Alphabet.symbols =
        some ['A', 'B'] := by
      decide +kernel
    have hmentor : (⟨"mentor", false, none, .entity 0⟩ : Field 1) ∈ (persons 0).fields := by
      decide
    have hdeclares := (Family.Declares.item.field rfl hmentor).field rfl hid
    refine (key_never_written hctx persons 0 _ none).2.2 (Context.usable_of_symbols hsymbols) ?_
      nofun
    refine List.forall_mem_singleton.mpr ⟨⟨_, hmentor, rfl, rfl⟩, fun check hcheck hother => ?_⟩
    -- A statement that removes has two checks, and one of them is about the key.
    simp only [Statement.checks, List.mem_cons, List.not_mem_nil, or_false, hother] at hcheck
    subst hcheck
    exact ⟨by decide, _, hdeclares⟩

end Update

end DocExpr
