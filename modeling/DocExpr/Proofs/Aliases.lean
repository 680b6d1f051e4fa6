import DocExpr.Proofs.Survivors
import DocExpr.Proofs.Validation

/-!
# Aliases are transparent

An alias is another handle on a place, and it may stand at any depth of a path: under fields and
ordinals, under other aliases, and over the root.  Two recursions pass through it, the one that
tells the root and the one that lists the segments, and everything that is written or resolved
depends on a path by these two alone.  So the aliases in conditions, statements and projections can
be dropped before anything is compiled: the same placeholders are bound in the same order, the same
text results, and the same error where there is one.

What is resolved keeps the paths that it was resolved from; there, and nowhere else, the aliases are
still to be seen.

## Main definitions

* `Path.withoutAliases`: the path with each alias replaced by what it is an alias of
* `Condition.withoutAliases`, `Statement.withoutAliases`, `Table.Call.withoutAliases`: likewise for
  all paths of a condition, of a statement and of a request
* `ResolvedPath.withoutAliases` and those of resolved conditions and statements: likewise for the
  paths that these keep

## Main results

* `Path.resolve_withoutAliases`, `Condition.resolve_withoutAliases`,
  `Statement.resolve_withoutAliases`: aliases do not matter to resolving
* `survivors_withoutAliases`: nor to which statements are printed
* `aliases_transparent`: nor to anything that is prepared, compiled or written
* `Table.Call.run_withoutAliases`: nor to the request that an operation makes
-/

namespace DocExpr

variable {n : Nat} {family : Family n} {of : Fin n}

/-! ## Paths -/

namespace Path

/-- The path with each alias replaced by what it is an alias of, at any depth. -/
def withoutAliases : Path → Path
  | root => root
  | field parent name => parent.withoutAliases.field name
  | element parent ordinal => parent.withoutAliases.element ordinal
  | aliasOf target => target.withoutAliases

@[simp] theorem segments_withoutAliases (path : Path) :
    path.withoutAliases.segments = path.segments := by
  induction path with
  | root => rfl
  | field parent name ih => rw [withoutAliases, segments, segments, ih]
  | element parent ordinal ih => rw [withoutAliases, segments, segments, ih]
  | aliasOf target ih => rw [withoutAliases, segments, ih]

/-- The root is what the root and the aliases of it become. -/
theorem withoutAliases_eq_root_iff (path : Path) :
    path.withoutAliases = root ↔ path.isRoot = true := by
  induction path with
  | root => simp [withoutAliases, isRoot]
  | field parent name => simp [withoutAliases, isRoot]
  | element parent ordinal => simp [withoutAliases, isRoot]
  | aliasOf target ih => rw [withoutAliases, isRoot, ih]

/-- The root has no segments, and aliases have those of their targets. -/
@[simp] theorem isRoot_withoutAliases (path : Path) :
    path.withoutAliases.isRoot = path.isRoot := by
  rw [Bool.eq_iff_iff, isRoot_iff, isRoot_iff, segments_withoutAliases]

theorem render_withoutAliases (nameOf : String → Except ExpressionError String) (path : Path) :
    path.withoutAliases.render nameOf = path.render nameOf :=
  render_congr nameOf path.segments_withoutAliases

@[simp] theorem literal_withoutAliases (path : Path) :
    path.withoutAliases.literal = path.literal :=
  path.render_withoutAliases .ok

@[simp] theorem withNames_withoutAliases (names : Dict String) (path : Path) :
    path.withoutAliases.withNames names = path.withNames names :=
  path.render_withoutAliases _

@[simp] theorem display_withoutAliases (path : Path) :
    path.withoutAliases.display = path.display := by
  rw [display, display, literal_withoutAliases]

/-- An ordinal is refused behind the root, which may be hidden under aliases. -/
theorem index_eq_error_iff (path : Path) (ordinal : Nat) :
    (∃ e, path.index ordinal = .error e) ↔ path.withoutAliases = root := by
  rw [withoutAliases_eq_root_iff, index]
  split
  · next hroot => exact ⟨fun _ => hroot, fun _ => ⟨_, rfl⟩⟩
  · next hroot => exact ⟨nofun, fun h => absurd h hroot⟩

example : (root.aliasOf.aliasOf).index 5 = .error (.invalidPath (.elementOfRoot 5)) := rfl

theorem index_withoutAliases (path : Path) (ordinal : Nat) :
    path.withoutAliases.index ordinal = withoutAliases <$> path.index ordinal := by
  rw [index, index, isRoot_withoutAliases]
  split <;> rfl

end Path

/-- What a path is resolved to, with the path that it keeps without aliases. -/
def ResolvedPath.withoutAliases (resolved : ResolvedPath) : ResolvedPath :=
  { resolved with path := resolved.path.withoutAliases }

/-- **Resolving a path without aliases** does the same steps on the context, and yields the same but
for the path that is kept. -/
theorem Path.resolve_withoutAliases (path : Path) :
    path.withoutAliases.resolve family of =
      ResolvedPath.withoutAliases <$> path.resolve family of := by
  simp only [resolve, literal_withoutAliases, segments_withoutAliases, withNames_withoutAliases,
    map_bind, map_pure]
  rfl

namespace ResolvedPath

@[simp] theorem fragment_withoutAliases (resolved : ResolvedPath) :
    resolved.withoutAliases.fragment = resolved.fragment := rfl

@[simp] theorem literal_withoutAliases (resolved : ResolvedPath) :
    resolved.withoutAliases.literal = resolved.literal := rfl

@[simp] theorem rootIsKey_withoutAliases (resolved : ResolvedPath) :
    resolved.withoutAliases.rootIsKey = resolved.rootIsKey := rfl

/-- What may stand beside a path depends on its type alone. -/
@[simp] theorem bindOperand_withoutAliases (resolved : ResolvedPath) :
    resolved.withoutAliases.bindOperand = resolved.bindOperand := rfl

end ResolvedPath

/-- A list is run through as another one when each entry is run as its counterpart. -/
theorem mapM_map_of_map {m : Type → Type} [Monad m] [LawfulMonad m] {α α' β β' : Type}
    {run : α → m β} {run' : α' → m β'} {f : α → α'} {g : β → β'}
    (h : ∀ a, run' (f a) = g <$> run a) (l : List α) :
    (l.map f).mapM run' = List.map g <$> l.mapM run := by
  induction l with
  | nil => simp
  | cons a rest ih => simp only [List.map_cons, List.mapM_cons, h, ih, bind_map_left, map_bind,
      map_pure]

/-! ## Conditions -/

/-- The condition with all its paths without aliases. -/
def Condition.withoutAliases (condition : Condition) : Condition :=
  condition.map Path.withoutAliases id

/-- What a condition is resolved to, with the paths that it keeps without aliases. -/
def ResolvedCondition.withoutAliases (condition : ResolvedCondition) : ResolvedCondition :=
  condition.map ResolvedPath.withoutAliases id

namespace Condition

open ConditionTree (map mapAll)

mutual

theorem resolve_map_withoutAliases : ∀ condition : Condition,
    resolve family of (condition.map Path.withoutAliases id) =
      map ResolvedPath.withoutAliases id <$> condition.resolve family of
  | .fixed .. => by simp only [map, resolve, map_bind, map_pure]
  | .existence .. | .hasType .. | .compare .. | .between .. | .beginsWith .. | .contains .. => by
    simp only [map, resolve, Path.resolve_withoutAliases, bind_map_left, map_bind, map_pure,
      ResolvedPath.bindOperand_withoutAliases, id_eq]
  | .compareField path comparison other => by
    simp only [map, resolve, Path.resolve_withoutAliases, bind_map_left, map_bind, map_pure]
  | .oneOf path candidates => by
    -- Whether there are candidates is found before the path is resolved.
    rw [map, List.map_id, resolve, resolve]
    split
    · rfl
    · simp only [map, Path.resolve_withoutAliases, bind_map_left, map_bind, map_pure,
        ResolvedPath.bindOperand_withoutAliases, List.map_id]
  | .group connective operands => by
    have hempty : (mapAll Path.withoutAliases id operands).isEmpty = operands.isEmpty := by
      cases operands <;> rfl
    rw [map, resolve, resolve, hempty, resolveAll_mapAll_withoutAliases operands]
    split
    · rfl
    · simp only [map, bind_map_left, map_bind, map_pure]
  | .not operand => by
    simp only [map, resolve, resolve_map_withoutAliases operand, bind_map_left, map_bind, map_pure]

theorem resolveAll_mapAll_withoutAliases : ∀ operands : List Condition,
    resolveAll family of (mapAll Path.withoutAliases id operands) =
      mapAll ResolvedPath.withoutAliases id <$> resolveAll family of operands
  | [] => by simp only [mapAll, resolveAll, map_pure]
  | operand :: rest => by
    simp only [mapAll, resolveAll, resolve_map_withoutAliases operand,
      resolveAll_mapAll_withoutAliases rest, bind_map_left, map_bind, map_pure]

end

/-- **Resolving a condition without aliases** does the same steps on the context, and yields the
same but for the paths that are kept. -/
theorem resolve_withoutAliases (condition : Condition) :
    condition.withoutAliases.resolve family of =
      ResolvedCondition.withoutAliases <$> condition.resolve family of :=
  resolve_map_withoutAliases condition

end Condition

namespace ResolvedCondition

open ConditionTree (map mapAll)

mutual

theorem fragment_map_withoutAliases : ∀ condition : ResolvedCondition,
    fragment (condition.map ResolvedPath.withoutAliases id) = condition.fragment
  | .fixed .. => rfl
  | .existence _ true | .existence _ false => rfl
  | .hasType .. | .compare .. | .compareField .. | .between .. | .beginsWith ..
  | .contains .. => rfl
  | .oneOf _ candidates => by
    rw [map, fragment, fragment, List.map_id, ResolvedPath.fragment_withoutAliases]
  | .group _ operands => by rw [map, fragment, fragment, enclosed_mapAll_withoutAliases operands]
  | .not operand => by rw [map, fragment, fragment, fragment_map_withoutAliases operand]

theorem enclosed_mapAll_withoutAliases : ∀ operands : List ResolvedCondition,
    enclosed (mapAll ResolvedPath.withoutAliases id operands) = enclosed operands
  | [] => rfl
  | operand :: rest => by
    rw [mapAll, enclosed, enclosed, fragment_map_withoutAliases operand,
      enclosed_mapAll_withoutAliases rest]

end

@[simp] theorem fragment_withoutAliases (condition : ResolvedCondition) :
    fragment condition.withoutAliases = fragment condition :=
  fragment_map_withoutAliases condition

end ResolvedCondition

theorem Condition.compile_withoutAliases (condition : Condition) :
    condition.withoutAliases.compile family of = condition.compile family of := by
  simp only [compile, resolve_withoutAliases, bind_map_left,
    ResolvedCondition.fragment_withoutAliases]

theorem compileCondition?_withoutAliases (condition? : Option Condition) :
    compileCondition? family of (condition?.map Condition.withoutAliases) =
      compileCondition? family of condition? := by
  cases condition? with
  | none => rfl
  | some condition =>
    simp only [Option.map_some, compileCondition?, Condition.compile_withoutAliases]

/-! ## Statements -/

/-- The statement with all its paths without aliases. -/
def Statement.withoutAliases (statement : Statement) : Statement :=
  ⟨statement.target.withoutAliases, statement.action.map Path.withoutAliases id⟩

/-- The statements with all their paths without aliases. -/
def Update.withoutAliases (update : Update) : Update := update.map Statement.withoutAliases

/-- What a statement is resolved to, with the paths that it keeps without aliases. -/
def ResolvedStatement.withoutAliases (statement : ResolvedStatement) : ResolvedStatement :=
  ⟨statement.target.withoutAliases, statement.action.map ResolvedPath.withoutAliases id⟩

/-- Whatever binds the constants, the paths of a value are resolved as without aliases. -/
theorem resolveExpr_withoutAliases (bind : AttributeValue → Compile BoundValue)
    (expr : ValueExpr Path AttributeValue) :
    resolveExpr family of bind (expr.map Path.withoutAliases id) =
      ValueExpr.map ResolvedPath.withoutAliases id <$> resolveExpr family of bind expr := by
  induction expr generalizing bind with
  | constant value => simp only [ValueExpr.map, resolveExpr, map_bind, map_pure, id_eq]
  | path path =>
    simp only [ValueExpr.map, resolveExpr, Path.resolve_withoutAliases, bind_map_left, map_bind,
      map_pure]
  | arithmetic left op right ihl ihr =>
    simp only [ValueExpr.map, resolveExpr, ihl, ihr, bind_map_left, map_bind, map_pure]
  | listAppend head tail ihh iht =>
    simp only [ValueExpr.map, resolveExpr, ihh, iht, bind_map_left, map_bind, map_pure]

/-- **Resolving a statement without aliases** does the same steps on the context, the test for the
key included, and yields the same but for the paths that are kept. -/
theorem Statement.resolve_withoutAliases (statement : Statement) :
    statement.withoutAliases.resolve family of =
      ResolvedStatement.withoutAliases <$> statement.resolve family of := by
  rw [resolve, resolve, withoutAliases, Path.resolve_withoutAliases, bind_map_left, map_bind]
  refine congrArg _ (funext fun target => ?_)
  rw [ResolvedPath.rootIsKey_withoutAliases]
  cases target.rootIsKey with
  | true =>
    -- The error names the target by its text, in which no alias shows.
    rfl
  | false =>
    cases statement.action with
    | remove => rfl
    | set expr overwrite =>
      simp only [Bool.false_eq_true, if_false, Action.map, resolveExpr_withoutAliases,
        ResolvedPath.bindOperand_withoutAliases, pure_bind, bind_map_left, map_bind, map_pure]
      rfl
    | add expr | delete expr =>
      simp only [Bool.false_eq_true, if_false, Action.map, resolveExpr_withoutAliases, pure_bind,
        bind_map_left, map_bind, map_pure]
      rfl

theorem Update.resolve_withoutAliases (update : Update) :
    update.withoutAliases.mapM (Statement.resolve family of) =
      List.map ResolvedStatement.withoutAliases <$> update.mapM (Statement.resolve family of) :=
  mapM_map_of_map Statement.resolve_withoutAliases update

/-- The statements that are printed stand at the same positions. -/
theorem survivorPositions_withoutAliases (statements : List ResolvedStatement) :
    survivorPositions (statements.map ResolvedStatement.withoutAliases) =
      survivorPositions statements :=
  lastPositions_map fun _ _ => rfl

theorem survivors_withoutAliases (statements : List ResolvedStatement) :
    survivors (statements.map ResolvedStatement.withoutAliases) =
      (survivors statements).map ResolvedStatement.withoutAliases := by
  rw [survivors_eq, survivors_eq]
  exact lastOfEach_map fun _ _ => rfl

theorem ResolvedExpr.fragment_withoutAliases (expr : ResolvedExpr) :
    fragment (expr.map ResolvedPath.withoutAliases id) = expr.fragment := by
  induction expr with
  | constant value => rfl
  | path path => rfl
  | arithmetic left op right ihl ihr => rw [ValueExpr.map, fragment, fragment, ihl, ihr]
  | listAppend head tail ihh iht => rw [ValueExpr.map, fragment, fragment, ihh, iht]

@[simp] theorem ResolvedStatement.fragment_withoutAliases (statement : ResolvedStatement) :
    fragment statement.withoutAliases = fragment statement := by
  obtain ⟨target, action⟩ := statement
  cases action with
  | set expr overwrite =>
    cases overwrite <;>
      simp only [withoutAliases, fragment, Action.map, ResolvedExpr.fragment_withoutAliases,
        ResolvedPath.fragment_withoutAliases]
  | add expr | delete expr =>
    simp only [withoutAliases, fragment, Action.map, ResolvedExpr.fragment_withoutAliases,
      ResolvedPath.fragment_withoutAliases]
  | remove => rfl

theorem updateFragment?_withoutAliases (statements : List ResolvedStatement) :
    updateFragment? (statements.map ResolvedStatement.withoutAliases) =
      updateFragment? statements := by
  have hclause : clauseFragment? (statements.map ResolvedStatement.withoutAliases) =
      clauseFragment? statements := by
    funext clause
    -- A statement stays in its clause.
    have hown : (statements.map ResolvedStatement.withoutAliases).filter
        (fun statement => statement.action.clause = clause) =
        (statements.filter fun statement => statement.action.clause = clause).map
          ResolvedStatement.withoutAliases := by
      rw [List.filter_map]
      simp only [Function.comp_def, ResolvedStatement.withoutAliases, Action.clause_map]
    simp only [clauseFragment?, hown, List.isEmpty_map, List.map_map, Function.comp_def,
      ResolvedStatement.fragment_withoutAliases]
  rw [updateFragment?, hclause, updateFragment?]

theorem Update.compile_withoutAliases (update : Update) (condition? : Option Condition) :
    update.withoutAliases.compile family of (condition?.map Condition.withoutAliases) =
      update.compile family of condition? := by
  simp only [compile, Update.resolve_withoutAliases, compileCondition?_withoutAliases,
    bind_map_left, survivors_withoutAliases, updateFragment?_withoutAliases]

/-! ## Projections -/

theorem compileProjection_withoutAliases (paths : List Path) :
    compileProjection family of (paths.map Path.withoutAliases) =
      compileProjection family of paths := by
  simp only [compileProjection, List.isEmpty_map, mapM_map_of_map Path.resolve_withoutAliases,
    bind_map_left, List.map_map, Function.comp_def, ResolvedPath.fragment_withoutAliases]

/-! ## Everything -/

/-- **Aliases are transparent.**  For every schema, a condition, an update with its condition, a
list of paths to ask for, and a path are resolved and compiled as they are without their aliases, at
whatever depth these stand.  The equalities are between computations: on every context the result,
or the error, and the context that is left are the same.  What is resolved differs in the paths that
it keeps alone, and of the statements of an update those at the same positions are printed.

A path takes no ordinal exactly when without its aliases it is the root, and its text is the same in
messages and with any names. -/
theorem aliases_transparent (family : Family n) (of : Fin n) :
    (∀ condition : Condition,
      condition.withoutAliases.resolve family of =
        ResolvedCondition.withoutAliases <$> condition.resolve family of ∧
      condition.withoutAliases.compile family of = condition.compile family of) ∧
    (∀ (update : Update) (condition? : Option Condition),
      update.withoutAliases.mapM (Statement.resolve family of) =
        List.map ResolvedStatement.withoutAliases <$> update.mapM (Statement.resolve family of) ∧
      update.withoutAliases.compile family of (condition?.map Condition.withoutAliases) =
        update.compile family of condition?) ∧
    (∀ statements : List ResolvedStatement,
      survivorPositions (statements.map ResolvedStatement.withoutAliases) =
        survivorPositions statements ∧
      survivors (statements.map ResolvedStatement.withoutAliases) =
        (survivors statements).map ResolvedStatement.withoutAliases) ∧
    (∀ paths : List Path,
      compileProjection family of (paths.map Path.withoutAliases) =
        compileProjection family of paths) ∧
    ∀ path : Path,
      path.withoutAliases.resolve family of =
        ResolvedPath.withoutAliases <$> path.resolve family of ∧
      (∀ ordinal,
        ((∃ e, path.index ordinal = .error e) ↔ path.withoutAliases = .root) ∧
        path.withoutAliases.index ordinal = Path.withoutAliases <$> path.index ordinal) ∧
      path.withoutAliases.display = path.display ∧
      ∀ names, path.withoutAliases.withNames names = path.withNames names := by
  refine ⟨fun condition => ?_, fun update condition? => ?_, fun statements => ?_, ?_,
    fun path => ?_⟩
  · exact ⟨condition.resolve_withoutAliases, condition.compile_withoutAliases⟩
  · exact ⟨update.resolve_withoutAliases, update.compile_withoutAliases condition?⟩
  · exact ⟨survivorPositions_withoutAliases statements, survivors_withoutAliases statements⟩
  · exact compileProjection_withoutAliases
  · exact ⟨path.resolve_withoutAliases,
      fun ordinal => ⟨path.index_eq_error_iff ordinal, path.index_withoutAliases ordinal⟩,
      path.display_withoutAliases, fun names => path.withNames_withoutAliases names⟩

namespace Table.Call

/-- What an operation is given, with all paths without aliases. -/
def withoutAliases : Call → Call
  | read record options =>
    read record { options with projection := options.projection.map Path.withoutAliases }
  | put record condition => put record (condition.map Condition.withoutAliases)
  | delete record condition => delete record (condition.map Condition.withoutAliases)
  | update record statements condition =>
    update record statements.withoutAliases (condition.map Condition.withoutAliases)
  | save record condition => save record (condition.map Condition.withoutAliases)
  | scan options =>
    scan { options with
      filter := options.filter.map Condition.withoutAliases
      projection := options.projection.map Path.withoutAliases }
  | query options =>
    query { options with
      keyCondition := options.keyCondition.withoutAliases
      filter := options.filter.map Condition.withoutAliases
      projection := options.projection.map Path.withoutAliases }

/-- **An operation makes the same request without aliases**, or fails with the same error. -/
theorem run_withoutAliases (table : Table n) (call : Call) :
    call.withoutAliases.run table = call.run table := by
  cases call with
  | read record options =>
    simp only [withoutAliases, run, Table.read, compileProjection_withoutAliases]
  | put record condition =>
    simp only [withoutAliases, run, Table.put, compileCondition?_withoutAliases]
  | delete record condition =>
    simp only [withoutAliases, run, Table.delete, compileCondition?_withoutAliases]
  | update record statements condition =>
    simp only [withoutAliases, run, Table.update, Update.compile_withoutAliases]
  | save record condition =>
    -- The statements are derived from the record, so only the condition has paths to change.
    have hcompile : ∀ update : Update,
        update.compile table.family table.of (condition.map Condition.withoutAliases) =
          update.compile table.family table.of condition := by
      intro update
      simp only [Update.compile, compileCondition?_withoutAliases]
    simp only [withoutAliases, run, Table.save, Table.update, hcompile]
  | scan options =>
    simp only [withoutAliases, run, Table.scan, compileCondition?_withoutAliases,
      compileProjection_withoutAliases]
  | query options =>
    simp only [withoutAliases, run, Table.query, Condition.compile_withoutAliases,
      compileCondition?_withoutAliases, compileProjection_withoutAliases]

end Table.Call

end DocExpr
