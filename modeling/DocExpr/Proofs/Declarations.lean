import DocExpr.Proofs.Dict
import DocExpr.Proofs.Fitting

/-!
# Declarations

A registry is built in one pass over the declarations of its fields, which stops at the first that
cannot be told from those before it.  Four rules compete for the error: a name must not be empty, it
must be new, a short code must be a token, and it must be new.  `Registry.Breaks` says which of them
a declaration breaks first, in words that mention the declarations before it and no pass.

The pass also enters the position of each name in an index, and fields are looked up there.
`Registry.indexFrom` is the pass with its index.  The index is in step with the declarations: it has
the names that were declared, each with the position of its declaration, so that looking up a name
and then the position yields the declaration of that name, and no position points nowhere.

## Main definitions

* `Registry.IsCode`: what a short code has to be
* `Registry.Breaks`, `Registry.FirstBreach`: the rule that a declaration breaks, and the first
  declaration that breaks one
* `Registry.indexFrom`: the pass over declarations that keeps an index

## Main results

* `Registry.firstFault?_eq_some_iff`: the fault that is found is the first breach
* `Registry.indexFrom_eq`: the pass has the same faults and the index of the declarations
* `Registry.build_exact`: when a registry is built, what it looks up, and why it is not built
-/

namespace DocExpr

namespace Registry

variable {n : Nat} {entity : String}

/-! ## The rules -/

/-- One or more letters and digits of ASCII and underscores. -/
def IsCode (code : String) : Prop :=
  code ≠ "" ∧ ∀ c ∈ code.toList,
    ('A' ≤ c ∧ c ≤ 'Z') ∨ ('a' ≤ c ∧ c ≤ 'z') ∨ ('0' ≤ c ∧ c ≤ '9') ∨ c = '_'

theorem isToken_iff_isCode (code : String) : isToken code = true ↔ IsCode code := by
  simp [isToken, IsCode, isTokenChar_iff]

/-- The error of a declaration, given those before it.  A name is looked at before a short code, and
the form of each before its uniqueness. -/
inductive Breaks (entity : String) (before : List (Field n)) (field : Field n) :
    RegistryError → Prop
  | emptyName (hname : field.name = "") : Breaks entity before field (.emptyName entity)
  | duplicateField (hname : field.name ≠ "") (hold : field.name ∈ before.map Field.name) :
    Breaks entity before field (.duplicateField entity field.name)
  | invalidCode {code : String} (hname : field.name ≠ "")
    (hnew : field.name ∉ before.map Field.name) (hcode : field.code = some code)
    (hform : ¬IsCode code) : Breaks entity before field (.invalidCode entity code)
  | duplicateCode {code : String} (hname : field.name ≠ "")
    (hnew : field.name ∉ before.map Field.name) (hcode : field.code = some code)
    (hform : IsCode code) (hold : code ∈ before.filterMap Field.code) :
    Breaks entity before field (.duplicateCode entity code)

/-- A declaration that breaks no rule, given those before it. -/
structure Obeys (before : List (Field n)) (field : Field n) : Prop where
  name_ne_empty : field.name ≠ ""
  name_new : field.name ∉ before.map Field.name
  code_form : ∀ code ∈ field.code, IsCode code
  code_new : ∀ code ∈ field.code, code ∉ before.filterMap Field.code

theorem Obeys.not_breaks {before : List (Field n)} {field : Field n} (h : Obeys before field)
    (e : RegistryError) : ¬Breaks entity before field e := by
  intro hbreaks
  cases hbreaks with
  | emptyName hname => exact h.name_ne_empty hname
  | duplicateField _ hold => exact h.name_new hold
  | invalidCode _ _ hcode hform => exact hform (h.code_form _ hcode)
  | duplicateCode _ _ hcode _ hold => exact h.code_new _ hcode hold

/-- The error of the first declaration that breaks a rule, given those before it.  None of the
declarations before it breaks one, given those before that. -/
def FirstBreach (entity : String) (before fields : List (Field n)) (e : RegistryError) : Prop :=
  ∃ earlier field later, fields = earlier ++ field :: later ∧
    Breaks entity (before ++ earlier) field e ∧
    ∀ start other rest, earlier = start ++ other :: rest →
      ∀ e', ¬Breaks entity (before ++ start) other e'

/-- One declaration has one error. -/
theorem Breaks.unique {before : List (Field n)} {field : Field n} {e e' : RegistryError}
    (h : Breaks entity before field e) (h' : Breaks entity before field e') : e = e' := by
  cases h <;> cases h' <;> simp_all

/-- The first breach is that of the first declaration, or that of the rest if the first declaration
breaks no rule. -/
theorem firstBreach_cons {before rest : List (Field n)} {field : Field n} {e : RegistryError} :
    FirstBreach entity before (field :: rest) e ↔
      Breaks entity before field e ∨
        (∀ e', ¬Breaks entity before field e') ∧ FirstBreach entity (before ++ [field]) rest e := by
  constructor
  · rintro ⟨earlier, other, later, heq, hbreaks, hobey⟩
    cases earlier with
    | nil =>
      obtain ⟨rfl, rfl⟩ := List.cons.inj heq
      rw [List.append_nil] at hbreaks
      exact .inl hbreaks
    | cons first earlier =>
      obtain ⟨rfl, rfl⟩ := List.cons.inj heq
      have hfirst := hobey [] field earlier rfl
      rw [List.append_nil] at hfirst
      refine .inr ⟨hfirst, earlier, other, later, rfl, ?_, fun start other rest heq => ?_⟩
      · rwa [List.append_assoc, List.singleton_append]
      · have := hobey (field :: start) other rest (by rw [heq, List.cons_append])
        rwa [List.append_assoc, List.singleton_append]
  · rintro (hbreaks | ⟨hfirst, earlier, other, later, rfl, hbreaks, hobey⟩)
    · refine ⟨[], field, rest, rfl, by rwa [List.append_nil], ?_⟩
      intro start other rest heq
      simp at heq
    · rw [List.append_assoc, List.singleton_append] at hbreaks
      refine ⟨field :: earlier, other, later, rfl, hbreaks, fun start other rest heq => ?_⟩
      cases start with
      | nil =>
        obtain ⟨rfl, rfl⟩ := List.cons.inj heq
        rwa [List.append_nil]
      | cons first start =>
        obtain ⟨rfl, rfl⟩ := List.cons.inj heq
        have := hobey start other rest rfl
        rwa [List.append_assoc, List.singleton_append] at this

/-- Where a rule is broken, the declarations are not well formed. -/
theorem FirstBreach.not_wellFormed {fields : List (Field n)} {e : RegistryError}
    (h : FirstBreach entity [] fields e) : ¬WellFormed fields := by
  obtain ⟨earlier, field, later, rfl, hbreaks, -⟩ := h
  intro wf
  have hnames := wf.names_nodup
  have hcodes := wf.codes_nodup
  rw [List.map_append, List.map_cons] at hnames
  rw [List.nil_append] at hbreaks
  cases hbreaks with
  | emptyName hname => exact wf.name_ne_empty field (by simp) hname
  | duplicateField _ hold => exact (List.nodup_append.mp hnames).2.2 _ hold _ (by simp) rfl
  | @invalidCode code _ _ hcode hform =>
    refine hform ((isToken_iff_isCode code).mp (wf.isToken_code code ?_))
    exact List.mem_filterMap.mpr ⟨field, by simp, hcode⟩
  | @duplicateCode code _ _ hcode _ hold =>
    rw [List.filterMap_append, List.filterMap_cons_some hcode] at hcodes
    exact (List.nodup_append.mp hcodes).2.2 _ hold _ (by simp) rfl

/-! ## The first fault -/

section Faults

variable {names codes : List String} {before : List (Field n)}
  (hnames : ∀ name, name ∈ names ↔ name ∈ before.map Field.name)
  (hcodes : ∀ code, code ∈ codes ↔ code ∈ before.filterMap Field.code)

include hnames hcodes

/-- A declaration that breaks a rule ends the pass with its error; otherwise the pass goes on with
its name and its short code. -/
theorem firstFault?_cons (entity : String) (field : Field n) (rest : List (Field n)) :
    (∃ e, Breaks entity before field e ∧ firstFault? entity names codes (field :: rest) = some e) ∨
      Obeys before field ∧
        firstFault? entity names codes (field :: rest) =
          firstFault? entity (field.name :: names) (field.code.toList ++ codes) rest := by
  rw [firstFault?]
  by_cases hname : field.name = ""
  · rw [if_pos hname]
    exact .inl ⟨_, .emptyName hname, rfl⟩
  rw [if_neg hname]
  by_cases hold : field.name ∈ names
  · rw [if_pos hold]
    exact .inl ⟨_, .duplicateField hname ((hnames _).mp hold), rfl⟩
  rw [if_neg hold]
  have hnew : field.name ∉ before.map Field.name := mt (hnames _).mpr hold
  cases hcode : field.code with
  | none => exact .inr ⟨⟨hname, hnew, by simp [hcode], by simp [hcode]⟩, rfl⟩
  | some code =>
    by_cases hform : isToken code = false
    · have hform' : ¬IsCode code := by
        rw [← isToken_iff_isCode, hform]
        exact Bool.false_ne_true
      exact .inl ⟨_, .invalidCode hname hnew hcode hform', if_pos hform⟩
    have hform' : IsCode code := (isToken_iff_isCode code).mp (by simpa using hform)
    by_cases hused : code ∈ codes
    · refine .inl ⟨_, .duplicateCode hname hnew hcode hform' ((hcodes _).mp hused), ?_⟩
      simp only [hform, hused, if_true, Bool.true_eq_false, if_false]
    · have hunused : code ∉ before.filterMap Field.code := mt (hcodes _).mpr hused
      refine .inr ⟨⟨hname, hnew, by simpa [hcode] using hform', by simpa [hcode] using hunused⟩, ?_⟩
      simp only [hform, hused, if_false]
      rfl

end Faults

/-- **The fault that is found is the first breach.** -/
theorem firstFault?_eq_some_iff {names codes : List String} {before fields : List (Field n)}
    (hnames : ∀ name, name ∈ names ↔ name ∈ before.map Field.name)
    (hcodes : ∀ code, code ∈ codes ↔ code ∈ before.filterMap Field.code) (e : RegistryError) :
    firstFault? entity names codes fields = some e ↔ FirstBreach entity before fields e := by
  induction fields generalizing names codes before with
  | nil =>
    constructor
    · intro h
      cases h
    · rintro ⟨earlier, field, later, heq, -⟩
      simp at heq
  | cons field rest ih =>
    rw [firstBreach_cons]
    rcases firstFault?_cons hnames hcodes entity field rest with
      ⟨e', hbreaks, hfault⟩ | ⟨hobeys, hfault⟩
    · rw [hfault, Option.some.injEq]
      constructor
      · rintro rfl
        exact .inl hbreaks
      · rintro (h | ⟨hnot, -⟩)
        · exact hbreaks.unique h
        · exact absurd hbreaks (hnot e')
    · have hnames' : ∀ name, name ∈ field.name :: names ↔
          name ∈ (before ++ [field]).map Field.name := by
        intro name
        simp [hnames, or_comm]
      have hcodes' : ∀ code, code ∈ field.code.toList ++ codes ↔
          code ∈ (before ++ [field]).filterMap Field.code := by
        intro code
        cases hcode : field.code <;> simp [hcodes, hcode, or_comm]
      rw [hfault, ih hnames' hcodes']
      constructor
      · exact fun h => .inr ⟨hobeys.not_breaks, h⟩
      · exact fun h => h.elim (fun h => absurd h (hobeys.not_breaks e)) And.right

theorem firstFault?_nil_iff (entity : String) (fields : List (Field n)) (e : RegistryError) :
    firstFault? entity [] [] fields = some e ↔ FirstBreach entity [] fields e :=
  firstFault?_eq_some_iff (by simp) (by simp) e

/-- **Declarations are well formed if and only if there is no fault among them.** -/
theorem firstFault?_eq_none_iff (entity : String) (fields : List (Field n)) :
    firstFault? entity [] [] fields = none ↔ WellFormed fields := by
  refine ⟨wellFormed_of_firstFault?, fun wf => ?_⟩
  cases hfault : firstFault? entity [] [] fields with
  | none => rfl
  | some e => exact absurd wf ((firstFault?_nil_iff entity fields e).mp hfault).not_wellFormed

/-! ## The index -/

/-- The pass over declarations from a position on.  It enters the position of each name in an index
and collects the short codes, and stops at the first fault. -/
def indexFrom (entity : String) (position : Nat) (index : Dict Nat) (codes : List String) :
    List (Field n) → Except RegistryError (Dict Nat)
  | [] => .ok index
  | field :: rest =>
    if field.name = "" then .error (.emptyName entity)
    else if index.contains field.name then .error (.duplicateField entity field.name)
    else
      match field.code with
      | none => indexFrom entity (position + 1) (index.insert field.name position) codes rest
      | some code =>
        if isToken code = false then .error (.invalidCode entity code)
        else if code ∈ codes then .error (.duplicateCode entity code)
        else
          indexFrom entity (position + 1) (index.insert field.name position) (code :: codes) rest

/-- The position of each name. -/
def positions (position : Nat) (fields : List (Field n)) : List (String × Nat) :=
  (fields.zipIdx position).map fun entry => (entry.1.name, entry.2)

theorem positions_cons (position : Nat) (field : Field n) (rest : List (Field n)) :
    positions position (field :: rest) =
      (field.name, position) :: positions (position + 1) rest := rfl

/-- **The pass has the same faults, and its index is that of the declarations.** -/
theorem indexFrom_eq {names codes : List String} {position : Nat} {index : Dict Nat}
    (hnames : ∀ name, name ∈ names ↔ index.contains name = true) (fields : List (Field n)) :
    indexFrom entity position index codes fields =
      match firstFault? entity names codes fields with
      | some fault => .error fault
      | none => .ok ((positions position fields).foldl
          (fun acc entry => acc.insert entry.1 entry.2) index) := by
  induction fields generalizing names codes position index with
  | nil => rfl
  | cons field rest ih =>
    have hnext : ∀ name, name ∈ field.name :: names ↔
        (index.insert field.name position).contains name = true := by
      intro name
      rw [Dict.contains_iff, Dict.mem_keys_insert, ← Dict.contains_iff, ← hnames, List.mem_cons]
    rw [indexFrom, firstFault?]
    by_cases hname : field.name = ""
    · rw [if_pos hname, if_pos hname]
    rw [if_neg hname, if_neg hname]
    by_cases hold : field.name ∈ names
    · rw [if_pos hold, if_pos ((hnames _).mp hold)]
    rw [if_neg hold, if_neg (mt (hnames _).mpr hold), positions_cons]
    cases field.code with
    | none => exact ih hnext
    | some code =>
      dsimp only
      by_cases hform : isToken code = false
      · rw [if_pos hform, if_pos hform]
      rw [if_neg hform, if_neg hform]
      by_cases hused : code ∈ codes
      · rw [if_pos hused, if_pos hused]
      · rw [if_neg hused, if_neg hused]
        exact ih hnext

/-- The pass over all declarations. -/
theorem indexFrom_nil (entity : String) (fields : List (Field n)) :
    indexFrom entity 0 ∅ [] fields =
      match firstFault? entity [] [] fields with
      | some fault => .error fault
      | none => .ok (Dict.ofList (positions 0 fields)) :=
  indexFrom_eq (by simp [Dict.contains]) fields

theorem mem_positions (fields : List (Field n)) (name : String) (i : Nat) :
    (name, i) ∈ positions 0 fields ↔ ∃ field, fields[i]? = some field ∧ field.name = name := by
  simp [positions, List.mk_mem_zipIdx_iff_getElem?]

/-- The index has a position for a name if and only if the name is declared there. -/
theorem get?_positions_iff {fields : List (Field n)} (hnodup : (fields.map Field.name).Nodup)
    (name : String) (i : Nat) :
    (Dict.ofList (positions 0 fields)).get? name = some i ↔
      ∃ field, fields[i]? = some field ∧ field.name = name := by
  have hkeys : Entries.keys (positions 0 fields) = fields.map Field.name := by
    calc Entries.keys (positions 0 fields)
        = (fields.zipIdx.map Prod.fst).map Field.name := by
          rw [Entries.keys, positions, List.map_map, List.map_map]
          rfl
      _ = fields.map Field.name := by rw [List.zipIdx_map_fst]
  rw [Dict.get?_eq_some_iff, Dict.entries_ofList (hkeys ▸ hnodup), mem_positions]

/-- Looking up a name in the index and its position in the list is looking up the declaration. -/
theorem field?_eq_positions (registry : Registry n) (name : String) :
    registry.field? name =
      ((Dict.ofList (positions 0 registry.fields)).get? name).bind (registry.fields[·]?) := by
  apply Option.ext
  intro field
  rw [field?_eq_some_iff, Option.bind_eq_some_iff]
  simp only [get?_positions_iff registry.wellFormed.names_nodup]
  constructor
  · rintro ⟨hmem, hname⟩
    obtain ⟨i, hi⟩ := List.mem_iff_getElem?.mp hmem
    exact ⟨i, ⟨field, hi, hname⟩, hi⟩
  · rintro ⟨i, ⟨other, hi, hname⟩, hfield⟩
    rw [hi] at hfield
    obtain rfl := Option.some.inj hfield
    exact ⟨List.mem_of_getElem? hi, hname⟩

/-! ## Building -/

theorem build_eq_error_iff {fields : List (Field n)} {e : RegistryError} :
    build entity fields = .error e ↔ firstFault? entity [] [] fields = some e := by
  unfold build
  split
  · next fault h => rw [h, Except.error.injEq, Option.some.injEq]
  · next h => simp [h]

theorem build_eq_ok_iff {fields : List (Field n)} {registry : Registry n} :
    build entity fields = .ok registry ↔ registry.entity = entity ∧ registry.fields = fields := by
  unfold build
  split
  · next fault h =>
    refine ⟨nofun, fun ⟨_, hfields⟩ => ?_⟩
    have hnone := (firstFault?_eq_none_iff entity registry.fields).mpr registry.wellFormed
    rw [hfields, h] at hnone
    cases hnone
  · next h =>
    obtain ⟨entity', fields', wf⟩ := registry
    simp [eq_comm]

/-- **Building a registry is exact.**

1. It succeeds if and only if no name is empty, no name is declared twice, every short code is one
   or more letters and digits of ASCII and underscores, and no short code is declared twice.
2. A registry that is built has the declarations, in order.  Looking up a name yields the
   declaration of that name, and something if and only if the name is declared; the pass that keeps
   an index succeeds as well, its index points at declarations of the name that is looked up, and
   looking up a name through it yields the same.
3. It fails with an error, as does the pass that keeps an index, if and only if this is the error of
   the first declaration that breaks a rule, given those before it. -/
theorem build_exact (entity : String) (fields : List (Field n)) :
    ((∃ registry, build entity fields = .ok registry) ↔
      (∀ field ∈ fields, field.name ≠ "") ∧ (fields.map Field.name).Nodup ∧
        (∀ code ∈ fields.filterMap Field.code, IsCode code) ∧
        (fields.filterMap Field.code).Nodup) ∧
    (∀ registry, build entity fields = .ok registry →
      registry.entity = entity ∧ registry.fields = fields ∧
      (∀ name, (registry.field? name).isSome ↔ name ∈ fields.map Field.name) ∧
      (∀ name field, registry.field? name = some field ↔ field ∈ fields ∧ field.name = name) ∧
      ∃ index, indexFrom entity 0 ∅ [] fields = .ok index ∧
        (∀ name i, index.get? name = some i ↔
          ∃ field, fields[i]? = some field ∧ field.name = name) ∧
        ∀ name, registry.field? name = (index.get? name).bind (fields[·]?)) ∧
    ∀ e, (build entity fields = .error e ↔ FirstBreach entity [] fields e) ∧
      (indexFrom entity 0 ∅ [] fields = .error e ↔ FirstBreach entity [] fields e) := by
  have hindex := indexFrom_nil entity fields
  refine ⟨?_, fun registry h => ?_, fun e => ⟨?_, ?_⟩⟩
  · constructor
    · rintro ⟨registry, h⟩
      obtain ⟨-, rfl⟩ := build_eq_ok_iff.mp h
      obtain ⟨hne, hnodup, htoken, hcodes⟩ := registry.wellFormed
      refine ⟨hne, hnodup, ?_, hcodes⟩
      intro code hcode
      exact (isToken_iff_isCode code).mp (htoken code hcode)
    · rintro ⟨hne, hnodup, hcode, hcodes⟩
      have wf : WellFormed fields :=
        ⟨hne, hnodup, fun code hmem => (isToken_iff_isCode code).mpr (hcode code hmem), hcodes⟩
      exact ⟨⟨entity, fields, wf⟩, build_eq_ok_iff.mpr ⟨rfl, rfl⟩⟩
  · obtain ⟨rfl, rfl⟩ := build_eq_ok_iff.mp h
    refine ⟨rfl, rfl, fun name => ?_, fun name field => field?_eq_some_iff, ?_⟩
    · rw [Option.isSome_iff_exists, List.mem_map]
      simp only [field?_eq_some_iff]
    · rw [(firstFault?_eq_none_iff _ _).mpr registry.wellFormed] at hindex
      exact ⟨_, hindex, get?_positions_iff registry.wellFormed.names_nodup,
        field?_eq_positions registry⟩
  · rw [build_eq_error_iff, firstFault?_nil_iff]
  · rw [← firstFault?_nil_iff, hindex]
    cases firstFault? entity [] [] fields <;> simp

/-- The second field has a short code that is told from the first one's by its case.  A third field
would break two rules, and its name is what it is refused for. -/
theorem build_exact_order :
    let id : Field 0 :=
      { name := "id", isKey := true, code := some "ID", kind := .scalar .string false }
    let size : Field 0 := { name := "size", code := some "Id", kind := .scalar .string false }
    let again : Field 0 := { name := "id", code := some "n.x", kind := .scalar .string false }
    (∃ registry, build "Item" [id, size] = .ok registry ∧ registry.field? "size" = some size ∧
      ¬(registry.field? "ID").isSome) ∧
    build "Item" [id, size, again] = .error (.duplicateField "Item" "id") ∧
      FirstBreach "Item" [] [id, size, again] (.duplicateField "Item" "id") := by
  intro id size again
  obtain ⟨hbuilt, hlookup, -⟩ := build_exact "Item" [id, size]
  obtain ⟨-, -, herror⟩ := build_exact "Item" [id, size, again]
  have hrefused : build "Item" [id, size, again] = .error (.duplicateField "Item" "id") :=
    build_eq_error_iff.mpr (by decide)
  refine ⟨?_, hrefused, (herror _).1.mp hrefused⟩
  · obtain ⟨registry, hregistry⟩ := hbuilt.mpr
      ⟨by decide, by decide, by simp [id, size, IsCode], by decide⟩
    obtain ⟨-, -, hdeclared, hfield, -⟩ := hlookup registry hregistry
    refine ⟨registry, hregistry, (hfield "size" size).mpr ⟨by simp, rfl⟩, ?_⟩
    rw [hdeclared]
    decide

end Registry

end DocExpr
