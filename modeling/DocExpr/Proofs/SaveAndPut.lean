import DocExpr.Proofs.Success
import DocExpr.Proofs.UpdateMeaning
import DocExpr.Proofs.Validation

/-!
# Saving and putting write the same attributes

There are two ways to store a record.  A put hands over its item as a whole.  A save asks for an
update of the item with its key, which overwrites every attribute outside the key; on the way each
of these is resolved like any path, checked like any operand and given placeholders like any value.
Nothing is lost or refused on that way, since what a record keeps has the types that its own schema
declares.

## Main definitions

* `Record.present`: the selected fields that have a value
* `Statement.overwrite`, `writtenAssignments`: the statement that gives a field a value, and what
  several of them say
* `Family.Assignable`: the assignments that a schema allows
* `Table.SavesAs`: a save and a put that write the same

## Main results

* `Record.Fits.kept_perm`: what is kept is the key and the rest
* `overwrites_succeed`, `overwrites_convey`: assignments compile, and say what they assign
* `Table.exists_put_iff`, `Table.exists_save_iff`: when a record can be put, and when saved
* `Table.save_writes_put`: a save succeeds when a put does, and writes the same
-/

namespace DocExpr

variable {n : Nat} {family : Family n} {of : Fin n}

open Piece (ofText)

/-! ## The key and the rest -/

/-- Whether a field has a value. -/
def FieldValue.isPresent : FieldValue → Bool
  | absent => false
  | _ => true

/-- The selected fields that have a value in a record, in the order of their declarations. -/
def Record.present (family : Family n) (of : Fin n) (select : Field n → Bool) (record : Record) :
    List String :=
  (((family of).fields.filter select).map Field.name).filter fun name =>
    (Entries.get? record name).any FieldValue.isPresent

/-- Something is kept of every value. -/
theorem FieldValue.Fits.isSome_kept {kind : FieldKind n} {value : FieldValue}
    (h : value.Fits family kind) : (value.kept? family kind).isSome = value.isPresent := by
  cases hkept : value.kept? family kind with
  | none => rw [h.eq_absent hkept, isPresent, Option.isSome_none]
  | some kept =>
    cases value with
    | absent => simp [kept?] at hkept
    | _ => rfl

/-- The names that are kept are those of which something is kept. -/
theorem keys_keptEntries (record : Record) :
    Entries.keys (keptEntries family of record) = Entries.keys (record.filter fun entry =>
      (((family of).field? entry.1).bind fun field => entry.2.kept? family field.kind).isSome) := by
  induction record with
  | nil => simp [keptEntries, Entries.keys]
  | cons entry rest ih =>
    obtain ⟨name, value⟩ := entry
    rw [keptEntries]
    cases hkept : ((family of).field? name).bind fun field => value.kept? family field.kind <;>
      simpa [hkept, Entries.keys] using ih

namespace Record.Fits

variable {record : Record} {select : Field n → Bool}

/-- **What is kept of a part are the fields with a value**, in the order of their declarations. -/
theorem keys_kept_part (h : record.Fits family of) :
    Entries.keys (keptEntries family of (record.part family of select)) =
      record.present family of select := by
  have hselected : ((family of).fields.filter select).map Field.name =
      (Entries.keys record).filter fun name => ((family of).field? name).any select := by
    rw [h.keys_eq, List.filter_map]
    refine congrArg _ (List.filter_congr fun field hfield => ?_)
    rw [Function.comp_apply, Registry.field?_eq_some_iff.mpr ⟨hfield, rfl⟩, Option.any_some]
  rw [keys_keptEntries, present, hselected, part, Entries.keys, Entries.keys, List.filter_map,
    List.filter_map]
  refine congrArg _ (List.filter_congr ?_)
  rintro ⟨name, value⟩ hentry
  obtain ⟨field, hfield, hfits⟩ := h.exists_field (List.mem_filter.mp hentry).1
  have hvalue := Entries.get?_of_mem h.nodup_keys (List.mem_filter.mp hentry).1
  simp only [Function.comp_apply, hfield, hvalue, Option.bind_some, Option.any_some]
  exact hfits.isSome_kept

/-- What is kept of a part belongs to fields that are selected. -/
theorem exists_of_mem_kept_part (h : record.Fits family of) {name : String} {kept : AttributeValue}
    (hkept : (name, kept) ∈ keptEntries family of (record.part family of select)) :
    ∃ value, (name, value) ∈ record ∧ ∃ field, (family of).field? name = some field ∧
      select field = true ∧ value.Fits family field.kind ∧
        value.kept? family field.kind = some kept := by
  obtain ⟨value, hvalue, field, hfield, hkept⟩ := mem_keptEntries_iff.mp hkept
  obtain ⟨hvalue, hselect⟩ := List.mem_filter.mp hvalue
  rw [hfield] at hselect
  obtain ⟨field', hfield', hfits⟩ := h.exists_field hvalue
  obtain rfl : field' = field := Option.some.inj (hfield'.symm.trans hfield)
  exact ⟨value, hvalue, field', hfield, hselect, hfits, hkept⟩

/-- The names of what is kept of a part are distinct. -/
theorem nodup_keys_kept_part (h : record.Fits family of) :
    (Entries.keys (keptEntries family of (record.part family of select))).Nodup := by
  rw [h.keys_kept_part, present]
  exact ((family of).wellFormed.names_nodup.sublist (List.filter_sublist.map _)).filter _

/-- **What is kept of a record is its key and the rest.** -/
theorem kept_perm (h : record.Fits family of) :
    (keptEntries family of (record.part family of Field.isKey) ++
      keptEntries family of (record.part family of fun field => !field.isKey)).Perm
        (keptEntries family of record) := by
  -- Every entry belongs to a field, which is one of the key or is not.
  have hrest : record.part family of (fun field => !field.isKey) =
      record.filter fun entry => !((family of).field? entry.1).any Field.isKey := by
    refine List.filter_congr fun entry hentry => ?_
    obtain ⟨field, hfield, -⟩ := h.exists_field hentry
    simp [hfield]
  rw [hrest, keptEntries_eq, keptEntries_eq, keptEntries_eq, ← List.filterMap_append]
  exact (List.filter_append_perm _ record).filterMap _

end Record.Fits

/-- The statement that gives a field a value, whatever is there. -/
def Statement.overwrite (entry : String × AttributeValue) : Statement :=
  ⟨.ofName entry.1, .set (.constant entry.2) true⟩

/-- **The update of a record assigns what is kept outside the key**, if all of it can be stored. -/
theorem Family.derive_eq_ok_iff {record : Record} {update : Update} :
    family.derive of record = .ok update ↔
      update = (keptEntries family of (record.part family of fun field => !field.isKey)).map
        Statement.overwrite ∧
      ∀ entry ∈ keptEntries family of (record.part family of fun field => !field.isKey),
        entry.2.Storable := by
  have hderive : family.derive of record = .ok update ↔
      ∃ entries, encodeFields family of (fun field => !field.isKey) record = .ok entries ∧
        entries.map Statement.overwrite = update := by
    rw [Family.derive, Except.bind_eq_ok_iff]
    exact exists_congr fun entries => and_congr_right fun _ => by simp [pure, Except.pure]; rfl
  rw [hderive, encodeFields_part]
  simp only [encodeFields_eq_ok_iff, and_assoc, exists_eq_left]
  exact ⟨fun ⟨hstorable, heq⟩ => ⟨heq.symm, hstorable⟩, fun ⟨heq, hstorable⟩ =>
    ⟨hstorable, heq.symm⟩⟩

/-- The key of a record is what is kept of it, if all of it can be stored. -/
theorem Record.Fits.exportKey_eq_ok_iff {record : Record} (h : record.Fits family of)
    {key : Item} : family.exportKey of record = .ok key ↔
      key.entries = keptEntries family of (record.part family of Field.isKey) ∧
        ∀ entry ∈ keptEntries family of (record.part family of Field.isKey),
          entry.2.Storable := by
  have hexport : family.exportKey of record =
      family.exportItem of (record.part family of Field.isKey) := by
    rw [Family.exportKey, encodeFields_part]
    rfl
  rw [hexport]
  exact Family.exportItem_eq_ok_iff_of_nodup h.nodup_keys_kept_part

/-! ## Assignments -/

/-- An assignment that a schema allows: its field is declared and not of the key, and its value is
of the type of the field and can be stored. -/
def Family.Assignable (family : Family n) (of : Fin n) (entry : String × AttributeValue) : Prop :=
  ∃ field, (family of).field? entry.1 = some field ∧ field.isKey = false ∧
    entry.2.type = field.kind.attributeType ∧ entry.2.Storable

/-- **What a schema allows compiles.** -/
theorem overwrites_succeed {entries : Entries AttributeValue}
    (h : ∀ entry ∈ entries, family.Assignable of entry) :
    Compile.Succeeds Context.Usable
      (Update.compile family of (entries.map Statement.overwrite) none) fun _ _ => True := by
  refine (Compile.Succeeds.mapM _ (List.forall_mem_map.mpr fun entry hentry => ?_)).bind
    fun statements => (Compile.Succeeds.pure none).bind fun condition? =>
      (Compile.Succeeds.pure _).imp fun _ _ _ => trivial
  obtain ⟨field, hfield, hkey, htype, hvalue⟩ := h entry hentry
  obtain ⟨-, hname⟩ := Registry.field?_eq_some_iff.mp hfield
  rw [Statement.overwrite, ← hname]
  exact Statement.overwrite_succeeds (by rw [hname, hfield]) hkey htype hvalue

/-- What some assignments say. -/
def writtenAssignments (entries : Entries AttributeValue) : List Piece :=
  ofText "SET " ++ (ofText ", ").intercalate
    (entries.map fun entry => [.name entry.1] ++ ofText " = " ++ [.value entry.2])

/-- Assignments all stand in one clause. -/
theorem writtenUpdate?_overwrites (entries : Entries AttributeValue) :
    writtenUpdate? (entries.map Statement.overwrite) =
      if entries.isEmpty then none else some (writtenAssignments entries) := by
  -- The clause of assignments holds all statements, and the others hold none.
  have hother : ∀ clause ≠ Clause.set,
      writtenClause? (entries.map Statement.overwrite) clause = none := by
    intro clause hclause
    have hnone : (entries.map Statement.overwrite).filter (fun statement =>
        statement.action.clause = clause) = [] :=
      List.filter_eq_nil_iff.mpr (List.forall_mem_map.mpr fun entry _ => by
        simp [Statement.overwrite, Action.clause, Ne.symm hclause])
    rw [writtenClause?, hnone]
  have hset : writtenClause? (entries.map Statement.overwrite) .set =
      if entries.isEmpty then none else some (writtenAssignments entries) := by
    have hall : (entries.map Statement.overwrite).filter (fun statement =>
        statement.action.clause = .set) = entries.map Statement.overwrite :=
      List.filter_eq_self.mpr (List.forall_mem_map.mpr fun _ _ => by
        simp [Statement.overwrite, Action.clause])
    rw [writtenClause?, hall]
    cases entries with
    | nil => rfl
    | cons entry rest =>
      show some (ofText "SET " ++ (ofText ", ").intercalate
        (((entry :: rest).map Statement.overwrite).map Statement.written)) = _
      rw [List.map_map]
      rfl
  rw [writtenUpdate?, writtenClauses, List.filterMap_cons, List.filterMap_cons,
    List.filterMap_cons, List.filterMap_cons, List.filterMap_nil, hset, hother _ (by decide),
    hother _ (by decide), hother _ (by decide)]
  cases entries with
  | nil => rfl
  | cons entry rest => simp

/-- The targets of assignments are written as the names that are assigned to. -/
theorem literals_of_overwrites {entries : Entries AttributeValue}
    {statements : List ResolvedStatement} (hliteral : ∀ statement ∈ statements,
      statement.target.path.literal = .ok statement.target.literal)
    (hsource : statements.map ResolvedStatement.source = entries.map Statement.overwrite) :
    statements.map (fun statement => statement.target.literal) = entries.keys := by
  have hdisplay : statements.map (fun statement => statement.target.literal) =
      (statements.map ResolvedStatement.source).map fun source => source.target.display := by
    rw [List.map_map]
    refine List.map_congr_left fun statement hs => ?_
    rw [Function.comp_apply, Path.display, ResolvedStatement.source, hliteral statement hs]
  rw [hdisplay, hsource, List.map_map]
  refine List.map_congr_left fun entry _ => ?_
  have hname : (Path.ofName entry.1).literal = .ok entry.1 := Path.render_ofName rfl
  rw [Function.comp_apply, Statement.overwrite, Path.display, hname]

/-- **Assignments say what they assign**, each to a field of its own. -/
theorem overwrites_convey {entries : Entries AttributeValue} (hnodup : entries.keys.Nodup)
    {ctx ctx' : Context} (hctx : ctx.Sound) {compiled : CompiledUpdate}
    (hrun : (Update.compile family of (entries.map Statement.overwrite) none).runOn ctx =
      (.ok compiled, ctx')) :
    ctx'.Sound ∧ compiled.condition? = none ∧ (compiled.update? = none ↔ entries = []) ∧
      ∀ fragment ∈ compiled.update?, fragment.Conveys ctx' (writtenAssignments entries) := by
  have hspec : Compile.Spec Context.Sound
      (Update.compile family of (entries.map Statement.overwrite) none) _ :=
    Update.compile_spec Context.stable_sound _ none nofun
  have hsound : ctx'.Sound := by
    have hkeeps := hspec.keeps hctx
    rwa [hrun] at hkeeps
  obtain ⟨statements, resolved?, rfl, hsource, hcondition, hstatements, -⟩ :=
    hspec.result hctx hrun
  have hliterals : statements.map (fun statement => statement.target.literal) = entries.keys := by
    refine literals_of_overwrites (fun statement hs => (hstatements.paths _ ?_).literal) hsource
    exact List.mem_flatMap.mpr ⟨statement, hs, by simp [StatementOn.paths]⟩
  have hleaves := hstatements.onLeaves_conveys hsound.linked hsound.formed
  have hupdate := (compositional_conveys ctx').update fun statement hs => hleaves.ofStatement hs
  rw [hsource, writtenUpdate?_overwrites] at hupdate
  -- No assignment takes the place of another.
  rw [survivors_eq_self (hliterals ▸ hnodup)]
  refine ⟨hsound, by simpa using hcondition, ?_, ?_⟩
  · rw [updateFragment?_eq_none_iff, ← List.map_eq_nil_iff, hsource, List.map_eq_nil_iff]
  · intro fragment hfragment
    have hfragment : updateFragment? statements = some fragment := hfragment
    rw [hfragment] at hupdate
    split at hupdate
    · cases hupdate
    · cases hupdate with
      | some hconveys => exact hconveys

/-! ## The two requests -/

namespace Table

variable {table : Table n} {record : Record}

/-- Without a condition, a put depends on the item alone. -/
theorem put_eq_ok_iff {stored : PutRequest} : table.put record = .ok stored ↔
    ∃ item, table.family.exportItem table.of record = .ok item ∧
      stored = { table := table.name, item } := by
  have hrun : table.run (compileCondition? table.family table.of none) = .ok none := rfl
  have hfinish : table.finish [none] = .ok (declarations [none]) :=
    table.finish_eq_ok (by simp)
  rw [put, hrun]
  show table.finish [none] >>= _ = _ ↔ _
  rw [hfinish]
  show table.itemOf record >>= _ = _ ↔ _
  simp only [Except.bind_eq_ok_iff, itemOf, Except.mapError_eq_ok_iff]
  refine exists_congr fun item => and_congr_right fun _ => ?_
  exact ⟨fun h => (Except.ok.inj h).symm, fun h => congrArg Except.ok h.symm⟩

/-- Without a condition, a save depends on the assignments and the key. -/
theorem save_eq_ok_iff {saved : UpdateRequest} : table.save record = .ok saved ↔
    ∃ update, table.family.derive table.of record = .ok update ∧
      ∃ compiled, table.run (update.compile table.family table.of none) = .ok compiled ∧
        ∃ key, table.family.exportKey table.of record = .ok key ∧
          saved = {
            table := table.name
            key
            update := text? compiled.update?
            condition := text? compiled.condition?
            names := (declarations [compiled.update?, compiled.condition?]).names
            values := (declarations [compiled.update?, compiled.condition?]).values } := by
  simp only [save, Table.update, Except.bind_eq_ok_iff, keyOf, Except.mapError_eq_ok_iff]
  refine exists_congr fun update => and_congr_right fun _ => exists_congr fun compiled =>
    and_congr_right fun hrun => ?_
  obtain ⟨ctx, -, hupdate, hcondition⟩ :=
    (update.compile_exact none (by simp)).runFresh (Context.checked_fresh _) hrun
  have hfinish : table.finish [compiled.update?, compiled.condition?] = .ok _ :=
    table.finish_eq_ok (by simpa using ⟨hupdate, hcondition⟩)
  simp only [hfinish, Except.ok.injEq, exists_eq_left']
  refine exists_congr fun key => and_congr_right fun _ => ?_
  exact ⟨fun h => (Except.ok.inj h).symm, fun h => congrArg Except.ok h.symm⟩

/-- A record can be put if all that is kept of it can be stored. -/
theorem exists_put_iff (hfits : record.Fits table.family table.of) :
    (∃ stored, table.put record = .ok stored) ↔
      ∀ entry ∈ keptEntries table.family table.of record, entry.2.Storable := by
  simp only [put_eq_ok_iff, hfits.exportItem_eq_ok_iff]
  constructor
  · rintro ⟨stored, item, ⟨-, hstorable⟩, -⟩
    exact hstorable
  · intro hstorable
    exact ⟨_, ⟨_, hfits.nodup_keys_kept⟩, ⟨rfl, hstorable⟩, rfl⟩

/-- **A record can be saved if all that is kept of it can be stored.** -/
theorem exists_save_iff {alphabet : Alphabet}
    (halphabet : Alphabet.ofSymbols table.config.alphabet.toList = .ok alphabet)
    (hfits : record.Fits table.family table.of) :
    (∃ saved, table.save record = .ok saved) ↔
      ∀ entry ∈ keptEntries table.family table.of record, entry.2.Storable := by
  -- The key and the rest are stored apart.
  have hparts : (∀ entry ∈ keptEntries table.family table.of record, entry.2.Storable) ↔
      (∀ entry ∈ keptEntries table.family table.of
        (record.part table.family table.of Field.isKey), entry.2.Storable) ∧
      ∀ entry ∈ keptEntries table.family table.of
        (record.part table.family table.of fun field => !field.isKey), entry.2.Storable := by
    simp only [← hfits.kept_perm.mem_iff]
    exact List.forall_mem_append
  rw [hparts]
  simp only [save_eq_ok_iff, Family.derive_eq_ok_iff, hfits.exportKey_eq_ok_iff]
  constructor
  · rintro ⟨saved, update, ⟨-, hrest⟩, compiled, -, key, ⟨-, hkey⟩, -⟩
    exact ⟨hkey, hrest⟩
  · rintro ⟨hkey, hrest⟩
    -- What a record keeps has the types of its fields, so no assignment is refused.
    have hassignable : ∀ entry ∈ keptEntries table.family table.of
        (record.part table.family table.of fun field => !field.isKey),
        table.family.Assignable table.of entry := by
      intro entry hentry
      obtain ⟨value, -, field, hfield, hselect, hvalue, hkept⟩ :=
        hfits.exists_of_mem_kept_part hentry
      exact ⟨field, hfield, by simpa using hselect, hvalue.type_kept hkept, hrest entry hentry⟩
    obtain ⟨compiled, ctx, hrun, -⟩ :=
      overwrites_succeed hassignable (.fresh table.config.alphabet) ⟨alphabet, halphabet⟩
    refine ⟨_, _, ⟨rfl, hrest⟩, compiled, ?_, ⟨_, hfits.nodup_keys_kept_part⟩, ⟨rfl, hkey⟩, rfl⟩
    rw [run, Compile.runFresh, hrun]

/-- **A save and a put that write the same.**  The save has the fields of the key that have a value
for its key, and assigns the other ones; together these are the item of the put. -/
structure SavesAs (table : Table n) (record : Record) (saved : UpdateRequest)
    (stored : PutRequest) (assigned : Entries AttributeValue) : Prop where
  update_reads : ∀ text ∈ saved.update,
    readText saved.names saved.values text = some (writtenAssignments assigned)
  update_absent : saved.update = none ↔
    record.present table.family table.of (fun field => !field.isKey) = []
  key_names : saved.key.keys = record.present table.family table.of Field.isKey
  assigned_names :
    assigned.keys = record.present table.family table.of fun field => !field.isKey
  disjoint : saved.key.keys.Disjoint assigned.keys
  together : (saved.key.entries ++ assigned).Perm stored.item.entries

/-- **A save and a put write the same attributes.**  If the symbols of the configuration make an
alphabet, a record of the entity can be saved if it can be put; the key of the save and the
assignments of its update are disjoint, and together they are the item that is put.  There is one
assignment for each field outside the key that has a value, in the order of the declarations, and no
update if there is no such field. -/
theorem save_writes_put (table : Table n) {alphabet : Alphabet}
    (halphabet : Alphabet.ofSymbols table.config.alphabet.toList = .ok alphabet) (record : Record)
    (hfits : record.Fits table.family table.of) :
    ((∃ saved, table.save record = .ok saved) ↔ ∃ stored, table.put record = .ok stored) ∧
      ∀ saved stored, table.save record = .ok saved → table.put record = .ok stored →
        ∃ assigned, table.SavesAs record saved stored assigned := by
  refine ⟨(exists_save_iff halphabet hfits).trans (exists_put_iff hfits).symm, ?_⟩
  intro saved stored hsave hput
  obtain ⟨item, hitem, rfl⟩ := put_eq_ok_iff.mp hput
  obtain ⟨update, hderive, compiled, hrun, key, hkey, rfl⟩ := save_eq_ok_iff.mp hsave
  obtain ⟨hitem, -⟩ := hfits.exportItem_eq_ok_iff.mp hitem
  obtain ⟨rfl, -⟩ := Family.derive_eq_ok_iff.mp hderive
  obtain ⟨hkey, -⟩ := hfits.exportKey_eq_ok_iff.mp hkey
  obtain ⟨ctx, hrun⟩ := exists_of_run hrun
  obtain ⟨hsound, hcondition, habsent, hconveys⟩ :=
    overwrites_convey hfits.nodup_keys_kept_part (Context.sound_fresh _) hrun
  have hkeys : key.keys = record.present table.family table.of Field.isKey := by
    rw [Dict.keys, hkey, hfits.keys_kept_part]
  have htogether := hfits.kept_perm
  rw [← hkey, ← hitem] at htogether
  refine ⟨_, ?_, ?_, hkeys, hfits.keys_kept_part, ?_, htogether⟩
  · intro text htext
    obtain ⟨fragment, hfragment, rfl⟩ := Option.map_eq_some_iff.mp htext
    -- The expression of the update is the only one, so all declarations are its own.
    have hdeclared : declarations [compiled.update?, compiled.condition?] = fragment := by
      rw [hfragment, hcondition]
      rfl
    rw [hdeclared]
    exact (hconveys fragment hfragment).read_eq hsound.formed
  · rw [← hfits.keys_kept_part, Entries.keys, List.map_eq_nil_iff, ← habsent]
    exact Option.map_eq_none_iff
  · have hnodup := (htogether.map Prod.fst).nodup_iff.mpr item.nodup
    rw [List.map_append] at hnodup
    exact List.disjoint_of_nodup_append hnodup

/-- A shelf is saved under its label; its books and the shelf above are assigned. -/
theorem save_writes_put_shelf :
    let table : Table 3 :=
      { name := "shelves", family := shelves, of := 0, config := ⟨"ABC", true⟩ }
    ∃ saved stored assigned, table.save shelf = .ok saved ∧ table.put shelf = .ok stored ∧
      saved.update = some "SET #A = :B, #C = :AA" ∧ assigned.keys = ["books", "above"] ∧
      table.SavesAs shelf saved stored assigned := by
  intro table
  have hsymbols : (Alphabet.ofSymbols table.config.alphabet.toList).toOption.map
      Alphabet.symbols = some ['A', 'B', 'C'] := by
    decide +kernel
  have htext : (table.save shelf).toOption.map UpdateRequest.update =
      some (some "SET #A = :B, #C = :AA") := by
    decide +kernel
  obtain ⟨alphabet, halphabet, -⟩ := Except.exists_of_toOption hsymbols
  obtain ⟨saved, hsave, htext⟩ := Except.exists_of_toOption htext
  obtain ⟨hiff, hsaves⟩ := save_writes_put table halphabet shelf shelf_fits
  obtain ⟨stored, hput⟩ := hiff.mp ⟨saved, hsave⟩
  obtain ⟨assigned, hassigned⟩ := hsaves saved stored hsave hput
  refine ⟨saved, stored, assigned, hsave, hput, htext, ?_, hassigned⟩
  rw [hassigned.assigned_names]
  decide +kernel

end Table

end DocExpr
