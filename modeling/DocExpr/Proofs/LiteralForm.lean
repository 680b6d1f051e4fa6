import DocExpr.Proofs.Resolution
import DocExpr.Proofs.SchemaPaths
import DocExpr.Proofs.Survivors

/-!
# Paths as they are written

A path is written with a point before a name and brackets around an ordinal, and updates tell places
apart by that text.  Names may be any texts, so the field `a.b` of an item is written like the field
`b` of its field `a`.  As long as the names on both sides contain neither sign, the text tells which
path it is; and whenever two targets are written alike, the earlier statement is left out.

## Main definitions

* `IsPlainName`: a name that contains no sign between the steps of a path

## Main results

* `Path.segments_eq_of_literal_eq`: paths of plain names that are written alike are one place
* `Path.literal_identifies`: which paths of plain names are written, and which of them alike
* `Update.leaves_out_iff`: a statement is left out exactly when the target of a later one is written
  alike
-/

namespace DocExpr

/-- A name without the signs that stand between the steps of a path. -/
def IsPlainName (name : String) : Prop := '.' ∉ name.toList ∧ '[' ∉ name.toList

instance (name : String) : Decidable (IsPlainName name) :=
  inferInstanceAs (Decidable ('.' ∉ name.toList ∧ '[' ∉ name.toList))

/-- The characters of a step behind another one. -/
def Segment.literal : Segment → List Char
  | .field name => '.' :: name.toList
  | .index ordinal => '[' :: (Nat.toDigits 10 ordinal ++ [']'])

namespace Path

/-- The text of a path grows step by step behind what is there. -/
theorem renderSegments_ok {segments : List Segment} {written text : String} (hne : written ≠ "")
    (h : renderSegments .ok written segments = .ok text) :
    text.toList = written.toList ++ segments.flatMap Segment.literal := by
  induction segments generalizing written with
  | nil =>
    cases h
    rw [List.flatMap_nil, List.append_nil]
  | cons segment rest ih =>
    cases segment with
    | field name =>
      rw [renderSegments_field rfl, if_neg hne] at h
      have hne' : written ++ "." ++ name ≠ "" := by simp
      rw [ih hne' h, List.flatMap_cons, Segment.literal]
      simp
    | index ordinal =>
      rw [renderSegments, if_neg hne] at h
      have hne' : written ++ "[" ++ toString ordinal ++ "]" ≠ "" := by simp
      rw [ih hne' h, List.flatMap_cons, Segment.literal]
      simp [Nat.repr]

/-- The literal of a path is its first name and the steps behind it. -/
theorem exists_of_literal {path : Path} {text : String} (h : path.literal = .ok text)
    (hnamed : "" ∉ path.fieldNames) : ∃ name rest, path.segments = .field name :: rest ∧
      text.toList = name.toList ++ rest.flatMap Segment.literal := by
  rw [fieldNames_eq] at hnamed
  rw [literal, render] at h
  split at h
  · cases h
  · next hroot =>
    cases hsegments : path.segments with
    | nil => exact absurd ((isRoot_iff path).mpr hsegments) hroot
    | cons segment rest =>
      rw [hsegments] at h hnamed
      cases segment with
      | index ordinal => cases h
      | field name =>
        have hname : name ≠ "" := fun hempty => hnamed (by rw [hempty]; exact List.mem_cons_self ..)
        exact ⟨name, rest, rfl, renderSegments_ok hname h⟩

/-! ## What the text tells -/

/-- A step starts with a sign that is in no plain name. -/
theorem takeWhile_literal (segments : List Segment) :
    (segments.flatMap Segment.literal).takeWhile (fun c => c ≠ '.' && c ≠ '[') = [] := by
  cases segments with
  | nil => rfl
  | cons segment rest =>
    rw [List.flatMap_cons]
    cases segment <;> rfl

/-- A plain name ends where the next step starts. -/
theorem name_eq_of_append_eq {name name' : String} (hplain : IsPlainName name)
    (hplain' : IsPlainName name') {segments segments' : List Segment}
    (h : name.toList ++ segments.flatMap Segment.literal =
      name'.toList ++ segments'.flatMap Segment.literal) :
    name = name' ∧ segments.flatMap Segment.literal = segments'.flatMap Segment.literal := by
  -- The name is the longest run without a sign, on either side.
  have hrun : ∀ {name : String}, IsPlainName name → ∀ segments : List Segment,
      (name.toList ++ segments.flatMap Segment.literal).takeWhile
        (fun c => c ≠ '.' && c ≠ '[') = name.toList := by
    intro name hplain segments
    have hall : ∀ c ∈ name.toList, (c ≠ '.' && c ≠ '[') = true := by
      intro c hc
      have hpoint : c ≠ '.' := fun heq => hplain.1 (heq ▸ hc)
      have hbracket : c ≠ '[' := fun heq => hplain.2 (heq ▸ hc)
      simp [hpoint, hbracket]
    rw [List.takeWhile_append_of_pos hall, takeWhile_literal, List.append_nil]
  have hname : name.toList = name'.toList := by
    rw [← hrun hplain segments, h, hrun hplain' segments']
  refine ⟨String.toList_inj.mp hname, ?_⟩
  rw [hname] at h
  exact List.append_cancel_left h

/-- An ordinal ends where its bracket closes. -/
theorem ordinal_eq_of_append_eq {ordinal ordinal' : Nat} {rest rest' : List Char}
    (h : Nat.toDigits 10 ordinal ++ ']' :: rest = Nat.toDigits 10 ordinal' ++ ']' :: rest') :
    ordinal = ordinal' ∧ rest = rest' := by
  have hrun : ∀ (ordinal : Nat) (rest : List Char),
      (Nat.toDigits 10 ordinal ++ ']' :: rest).takeWhile Char.isDigit =
        Nat.toDigits 10 ordinal := by
    intro ordinal rest
    have hall : ∀ c ∈ Nat.toDigits 10 ordinal, c.isDigit := fun c hc =>
      Nat.isDigit_of_mem_toDigits (by decide) (by decide) hc
    rw [List.takeWhile_append_of_pos hall, List.takeWhile_cons, if_neg (by decide), List.append_nil]
  -- The digits are the longest run of digits, on either side.
  have hdigits : Nat.toDigits 10 ordinal = Nat.toDigits 10 ordinal' := by
    rw [← hrun ordinal rest, h, hrun ordinal' rest']
  rw [hdigits] at h
  refine ⟨?_, List.cons.inj (List.append_cancel_left h) |>.2⟩
  rw [← Nat.ofDigitChars_toDigits (b := 10) (n := ordinal) (by decide) (by decide), hdigits,
    Nat.ofDigitChars_toDigits (by decide) (by decide)]

/-- Steps with plain names are told by their text. -/
theorem steps_eq_of_literal_eq {segments segments' : List Segment}
    (hplain : ∀ name ∈ segments.filterMap Segment.name?, IsPlainName name)
    (hplain' : ∀ name ∈ segments'.filterMap Segment.name?, IsPlainName name)
    (h : segments.flatMap Segment.literal = segments'.flatMap Segment.literal) :
    segments = segments' := by
  induction segments generalizing segments' with
  | nil =>
    cases segments' with
    | nil => rfl
    | cons segment' rest' => cases segment' <;> cases h
  | cons segment rest ih =>
    cases segments' with
    | nil => cases segment <;> cases h
    | cons segment' rest' =>
      rw [List.flatMap_cons, List.flatMap_cons] at h
      -- The first character tells whether a step is a name or an ordinal.
      cases segment with
      | field name =>
        cases segment' with
        | index ordinal => cases (List.cons.inj h).1
        | field name' =>
          obtain ⟨hname, hrest⟩ := List.forall_mem_cons.mp hplain
          obtain ⟨hname', hrest'⟩ := List.forall_mem_cons.mp hplain'
          obtain ⟨rfl, htail⟩ := name_eq_of_append_eq hname hname' (List.cons.inj h).2
          rw [ih hrest hrest' htail]
      | index ordinal =>
        cases segment' with
        | field name => cases (List.cons.inj h).1
        | index ordinal' =>
          have hdigits : Nat.toDigits 10 ordinal ++ ']' :: rest.flatMap Segment.literal =
              Nat.toDigits 10 ordinal' ++ ']' :: rest'.flatMap Segment.literal := by
            simpa [Segment.literal] using h
          obtain ⟨rfl, htail⟩ := ordinal_eq_of_append_eq hdigits
          rw [@ih rest' hplain hplain' htail]

/-- **Paths of plain names that are written alike are one place.** -/
theorem segments_eq_of_literal_eq {path path' : Path} {text : String}
    (h : path.literal = .ok text) (h' : path'.literal = .ok text)
    (hnamed : "" ∉ path.fieldNames) (hnamed' : "" ∉ path'.fieldNames)
    (hplain : ∀ name ∈ path.fieldNames, IsPlainName name)
    (hplain' : ∀ name ∈ path'.fieldNames, IsPlainName name) : path.segments = path'.segments := by
  obtain ⟨name, rest, hsegments, htext⟩ := exists_of_literal h hnamed
  obtain ⟨name', rest', hsegments', htext'⟩ := exists_of_literal h' hnamed'
  rw [fieldNames_eq, hsegments] at hplain
  rw [fieldNames_eq, hsegments'] at hplain'
  obtain ⟨hname, hrest⟩ := List.forall_mem_cons.mp hplain
  obtain ⟨hname', hrest'⟩ := List.forall_mem_cons.mp hplain'
  obtain ⟨rfl, htail⟩ := name_eq_of_append_eq hname hname' (htext.symm.trans htext')
  rw [hsegments, hsegments', steps_eq_of_literal_eq hrest hrest' htail]

/-- The text of a path is that of its steps. -/
theorem literal_congr {path path' : Path} (h : path.segments = path'.segments) :
    path.literal = path'.literal :=
  render_congr .ok h

/-- Where no name is empty, only an ordinal at the start keeps steps from being written. -/
theorem unwritable_iff_of_named {segments : List Segment}
    (hnamed : "" ∉ segments.filterMap Segment.name?) :
    (∃ fault, Unwritable segments fault) ↔
      segments = [] ∨ ∃ ordinal rest, segments = .index ordinal :: rest := by
  constructor
  · rintro ⟨fault, hfault⟩
    cases hfault with
    | root => exact .inl rfl
    | @ordinal steps ordinal rest hsteps =>
      cases steps with
      | nil => exact .inr ⟨ordinal, rest, rfl⟩
      | cons step steps =>
        -- Before an ordinal that cannot be written there are empty names only.
        obtain rfl := hsteps step (List.mem_cons_self ..)
        exact absurd (List.mem_cons_self ..) hnamed
  · rintro (rfl | ⟨ordinal, rest, rfl⟩)
    · exact ⟨_, .root⟩
    · have hfault : Unwritable ([] ++ .index ordinal :: rest) _ :=
        .ordinal ordinal rest (List.forall_mem_nil _)
      exact ⟨_, hfault⟩

/-- **The text of a path identifies it, as long as its names are plain and none is empty.**  However
a path has been put together, aliases included, it has a text unless it has no segments or starts
with an ordinal; and two paths that have texts have the same text exactly when their segments are
the same. -/
theorem literal_identifies (path path' : Path)
    (hnames : ∀ name ∈ path.fieldNames, name ≠ "" ∧ IsPlainName name)
    (hnames' : ∀ name ∈ path'.fieldNames, name ≠ "" ∧ IsPlainName name) :
    ((∃ e, path.literal = .error e) ↔
      path.segments = [] ∨ ∃ ordinal rest, path.segments = .index ordinal :: rest) ∧
    ∀ text text', path.literal = .ok text → path'.literal = .ok text' →
      (text = text' ↔ path.segments = path'.segments) := by
  have hnamed : "" ∉ path.fieldNames := fun hmem => (hnames _ hmem).1 rfl
  have hnamed' : "" ∉ path'.fieldNames := fun hmem => (hnames' _ hmem).1 rfl
  constructor
  · rw [← unwritable_iff_of_named (fieldNames_eq path ▸ hnamed)]
    constructor
    · rintro ⟨e, he⟩
      obtain ⟨fault, hfault, -⟩ := literal_eq_error_iff.mp he
      exact ⟨fault, hfault⟩
    · rintro ⟨fault, hfault⟩
      exact ⟨_, literal_eq_error_iff.mpr ⟨fault, hfault, rfl⟩⟩
  · intro text text' htext htext'
    constructor
    · rintro rfl
      exact segments_eq_of_literal_eq htext htext' hnamed hnamed'
        (fun name hmem => (hnames name hmem).2) fun name hmem => (hnames' name hmem).2
    · intro hsegments
      rw [literal_congr hsegments, htext'] at htext
      exact (Except.ok.inj htext).symm

/-- Two ordinals in a row are not taken for one of two digits, whatever aliases are on the way. -/
theorem literal_identifies_ordinals :
    let path := ((ofName "list").element 12).aliasOf.field "b"
    let path' := ((((aliasOf root).field "list").element 1).element 2).field "b"
    path.literal = .ok "list[12].b" ∧ path'.literal = .ok "list[1][2].b" ∧
    path.segments ≠ path'.segments ∧ ¬∃ e, path.literal = .error e := by
  intro path path'
  have htext : path.literal = .ok "list[12].b" := by decide +kernel
  have htext' : path'.literal = .ok "list[1][2].b" := by decide +kernel
  have hnames : ∀ name ∈ path.fieldNames, name ≠ "" ∧ IsPlainName name := by decide
  have hnames' : ∀ name ∈ path'.fieldNames, name ≠ "" ∧ IsPlainName name := by decide
  obtain ⟨hfails, hsame⟩ := literal_identifies path path' hnames hnames'
  refine ⟨htext, htext', ?_, ?_⟩
  · rw [ne_eq, ← hsame _ _ htext htext']
    decide
  · rw [hfails]
    rintro (hnone | ⟨ordinal, rest, hindex⟩)
    · cases hnone
    · cases hindex

end Path

/-! ## The statements that are left out -/

variable {n : Nat} {family : Family n} {of : Fin n}

/-- **A statement is left out exactly when the target of a later one is written alike.**  Whatever a
linked context has bound, the expression of an update that compiles is that of the statements at
some positions, and a position is missing exactly when a later statement has a target with the same
text.  Targets that are one place have one text.  Targets of plain names have one text only if they
are one place; other names may make two places look alike, and the earlier statement is lost. -/
theorem Update.leaves_out_iff {ctx ctx' : Context} (hctx : ctx.Linked) (update : Update)
    (condition? : Option Condition) (compiled : CompiledUpdate)
    (h : (update.compile family of condition?).runOn ctx = (.ok compiled, ctx')) :
    ∃ (resolved : List ResolvedStatement) (kept : List Nat),
      resolved.map ResolvedStatement.source = update ∧ kept.Nodup ∧
      compiled.update? = updateFragment? (kept.filterMap (resolved[·]?)) ∧
      (∀ i statement, update[i]? = some statement →
        (i ∈ kept ↔ ¬ ∃ j later, i < j ∧ update[j]? = some later ∧
          later.target.literal = statement.target.literal)) ∧
      ∀ statement ∈ update, ∀ later ∈ update,
        (later.target.segments = statement.target.segments →
          later.target.literal = statement.target.literal) ∧
        ((∀ name ∈ statement.target.fieldNames ++ later.target.fieldNames, IsPlainName name) →
          later.target.literal = statement.target.literal →
            later.target.segments = statement.target.segments) := by
  have hspec : Compile.Spec (fun ctx => ctx.Linked) (update.compile family of condition?) _ :=
    update.compile_spec Context.stable_linked condition? fun _ _ text _ =>
      Context.admits_linked text
  obtain ⟨statements, resolved?, rfl, rfl, -, hstatements, -⟩ := hspec.result hctx h
  have hbound : ∀ statement ∈ statements, statement.target.BoundIn ctx' := by
    intro statement hs
    apply hstatements.paths
    exact List.mem_flatMap.mpr ⟨statement, hs, by simp [StatementOn.paths]⟩
  -- Whether the texts agree is seen before or after resolution alike.
  have halike : ∀ a ∈ statements, ∀ b ∈ statements, a.target.path.literal = b.target.path.literal ↔
      a.target.literal = b.target.literal := by
    intro a ha b hb
    rw [(hbound a ha).literal, (hbound b hb).literal, Except.ok.injEq]
  obtain ⟨kept, hnodup, hkept, hiff⟩ :=
    exists_positions (fun statement => statement.target.literal) statements
  refine ⟨statements, kept, rfl, hnodup, by rw [survivors_eq, hkept], ?_, ?_⟩
  · intro i statement hstatement
    rw [List.getElem?_map] at hstatement
    obtain ⟨resolved, hresolved, rfl⟩ := Option.map_eq_some_iff.mp hstatement
    have hmem := List.mem_of_getElem? hresolved
    rw [hiff i resolved hresolved]
    apply not_congr
    constructor
    · rintro ⟨j, later, hlt, hlater, hsame⟩
      refine ⟨j, later.source, hlt, by rw [List.getElem?_map, hlater]; rfl, ?_⟩
      exact (halike later (List.mem_of_getElem? hlater) resolved hmem).mpr hsame
    · rintro ⟨j, later, hlt, hlater, hsame⟩
      rw [List.getElem?_map] at hlater
      obtain ⟨resolved', hresolved', rfl⟩ := Option.map_eq_some_iff.mp hlater
      refine ⟨j, resolved', hlt, hresolved', ?_⟩
      exact (halike resolved' (List.mem_of_getElem? hresolved') resolved hmem).mp hsame
  · intro statement hs later hl
    refine ⟨Path.literal_congr, fun hplain hsame => ?_⟩
    obtain ⟨resolved, hresolved, rfl⟩ := List.mem_map.mp hs
    obtain ⟨resolved', hresolved', rfl⟩ := List.mem_map.mp hl
    obtain ⟨hplain, hplain'⟩ := List.forall_mem_append.mp hplain
    have hfirst := hbound resolved hresolved
    have hlater := hbound resolved' hresolved'
    exact Path.segments_eq_of_literal_eq (hsame.trans hfirst.literal) hfirst.literal hlater.named
      hfirst.named hplain' hplain

/-- A family in which the field `a.b` is written like the field `b` of the field `a`. -/
def lookalikes : Family 2
  | 0 => {
    entity := "Outer"
    fields := [
      { name := "a.b", kind := .scalar .string false },
      { name := "a", kind := .entity 1 }]
    wellFormed := ⟨by decide, by decide, by decide, by decide⟩ }
  | 1 => {
    entity := "Inner"
    fields := [{ name := "b", kind := .scalar .string false }]
    wellFormed := ⟨by decide, by decide, by decide, by decide⟩ }

/-- Two fields are set, and the first is lost. -/
theorem Update.leaves_out_iff_lookalikes :
    let update : Update := [
      ⟨.ofName "a.b", .set (.constant (.string "x")) true⟩,
      ⟨(Path.ofName "a").field "b", .set (.constant (.string "y")) true⟩]
    (update.map fun statement => statement.target.segments) =
      [[.field "a.b"], [.field "a", .field "b"]] ∧
    ∃ (compiled : CompiledUpdate) (ctx' : Context) (resolved : List ResolvedStatement)
      (kept : List Nat),
      (update.compile lookalikes 0 none).runOn (.fresh "ABCDE") = (.ok compiled, ctx') ∧
      compiled.update?.map Fragment.text = some "SET #C.#D = :E" ∧
      resolved.map ResolvedStatement.source = update ∧
      compiled.update? = updateFragment? (kept.filterMap (resolved[·]?)) ∧
      0 ∉ kept ∧ 1 ∈ kept := by
  intro update
  have htext : ((update.compile lookalikes 0 none).runOn (.fresh "ABCDE")).1.toOption.map
      (fun compiled => compiled.update?.map Fragment.text) = some (some "SET #C.#D = :E") := by
    decide +kernel
  obtain ⟨compiled, ctx', hrun, htext⟩ := Compile.exists_of_toOption htext
  obtain ⟨resolved, kept, hsource, -, hcompiled, hkept, -⟩ :=
    Update.leaves_out_iff (Context.linked_fresh "ABCDE") update none compiled hrun
  refine ⟨rfl, compiled, ctx', resolved, kept, hrun, htext, hsource, hcompiled, ?_, ?_⟩
  · rw [hkept 0 _ rfl, not_not]
    exact ⟨1, _, by decide, rfl, rfl⟩
  · rw [hkept 1 _ rfl]
    rintro ⟨j, later, hlt, hlater, -⟩
    have hlen := (List.getElem?_eq_some_iff.mp hlater).1
    have htwo : update.length = 2 := rfl
    omega

end DocExpr
