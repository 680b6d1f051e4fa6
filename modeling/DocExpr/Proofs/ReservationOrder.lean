import DocExpr.Proofs.Fitting
import DocExpr.Proofs.Preparing
import DocExpr.Proofs.Simulation

/-!
# The order in which placeholders are reserved

A text of the caller comes with dictionaries of its placeholders, and a dictionary has no order of
its own: its entries are reserved in whatever order they are listed.  The order does not tell
whether a condition compiles, nor what its placeholders mean.  It tells one thing only.  If a text
gives a field several placeholders before the field has one, the field goes by the first of them
that is reserved, and later paths are written with it.

Where points stand in a path depends on whether something was written before them, and an empty
placeholder is not told from nothing.  So it takes one condition: no field on a path is given an
empty placeholder and another one too.

## Main definitions

* `TextsAlike`, `Fragment.Alike`: texts that differ in which of its placeholders a field goes by
* `ConditionTree.Reordered`: conditions that differ in the order of the entries of their texts
* `Condition.Interchangeable`: a placeholder of a field on a path that is given several

## Main results

* `Path.resolve_simulates`: a path resolves to paths that are alike
* `Condition.resolve_reordered`, `ResolvedCondition.fragment_alike`: conditions in another order
* `Condition.compile_reordered`: what the order of the entries can change
-/

namespace DocExpr

variable {n : Nat} {family : Family n} {of : Fin n} {A B : String → String → Prop}

open Compile (Simulates)

/-! ## Texts that are alike -/

/-- Texts that are made of the same parts, save for placeholders that the same field may go by. -/
inductive TextsAlike (A : String → String → Prop) : String → String → Prop
  | refl (text : String) : TextsAlike A text text
  | placeholders {p p' field : String} (hp : A p field) (hp' : A p' field) : TextsAlike A p p'
  | append {a a' b b' : String} (ha : TextsAlike A a a') (hb : TextsAlike A b b') :
    TextsAlike A (a ++ b) (a' ++ b')

/-- Where no field may go by two placeholders, there is one text only. -/
theorem TextsAlike.eq_of_forall_not {text text' : String} (h : TextsAlike A text text')
    (hA : ∀ p field, ¬A p field) : text = text' := by
  induction h with
  | refl => rfl
  | placeholders hp => exact (hA _ _ hp).elim
  | append _ _ iha ihb => rw [iha, ihb]

namespace SamePlaceholder

variable {field p p' : String}

theorem textsAlike (h : SamePlaceholder A field p p') : TextsAlike A p p' := by
  rcases h with rfl | ⟨hp, hp'⟩
  · exact .refl p
  · exact .placeholders hp hp'

theorem eq_empty_iff (h : SamePlaceholder A field p p') (hempty : ¬A "" field) :
    p = "" ↔ p' = "" := by
  rcases h with rfl | ⟨hp, hp'⟩
  · exact Iff.rfl
  · constructor
    · rintro rfl
      exact (hempty hp).elim
    · rintro rfl
      exact (hempty hp').elim

end SamePlaceholder

/-- **A path is written with placeholders that its fields may go by.**  Whether something was
written before decides where points stand, so no placeholder may be empty in one text only. -/
theorem Path.renderSegments_alike (hempty : ∀ field, ¬A "" field)
    {nameOf nameOf' : String → Except ExpressionError String} {segments : List Segment}
    (hnames : ∀ name ∈ segments.filterMap Segment.name?, ∀ p, nameOf name = .ok p →
      ∃ p', nameOf' name = .ok p' ∧ SamePlaceholder A name p p')
    {written written' text : String} (hwritten : TextsAlike A written written')
    (hnothing : written = "" ↔ written' = "")
    (hrun : renderSegments nameOf written segments = .ok text) :
    ∃ text', renderSegments nameOf' written' segments = .ok text' ∧ TextsAlike A text text' := by
  induction segments generalizing written written' with
  | nil =>
    cases hrun
    exact ⟨written', rfl, hwritten⟩
  | cons segment rest ih =>
    cases segment with
    | field name =>
      obtain ⟨hname, hrest⟩ := List.forall_mem_cons.mp
        (show ∀ x ∈ name :: rest.filterMap Segment.name?, _ from hnames)
      cases hp : nameOf name with
      | error e =>
        rw [renderSegments, hp] at hrun
        cases hrun
      | ok p =>
        obtain ⟨p', hp', hsame⟩ := hname p hp
        rw [renderSegments_field hp] at hrun
        rw [renderSegments_field hp']
        by_cases hwrites : written = ""
        · rw [if_pos hwrites] at hrun
          rw [if_pos (hnothing.mp hwrites)]
          exact ih hrest hsame.textsAlike (hsame.eq_empty_iff (hempty name)) hrun
        · rw [if_neg hwrites] at hrun
          rw [if_neg (mt hnothing.mpr hwrites)]
          refine ih hrest ((hwritten.append (.refl ".")).append hsame.textsAlike) ?_ hrun
          simp [String.append_eq_empty_iff]
    | index ordinal =>
      rw [renderSegments] at hrun ⊢
      by_cases hwrites : written = ""
      · rw [if_pos hwrites] at hrun
        cases hrun
      · rw [if_neg hwrites] at hrun
        rw [if_neg (mt hnothing.mpr hwrites)]
        refine ih hnames (((hwritten.append (.refl "[")).append (.refl _)).append (.refl "]")) ?_
          hrun
        simp [String.append_eq_empty_iff]

/-- Fragments with texts that are alike, the same values, and the same name placeholders save for
those that a field may go by. -/
structure Fragment.Alike (A : String → String → Prop) (a a' : Fragment) : Prop where
  text : TextsAlike A a.text a'.text
  names : ∀ p ∈ a.names.keys, p ∈ a'.names.keys ∨ ∃ field, A p field
  values : ∀ placeholder, a'.values.get? placeholder = a.values.get? placeholder

namespace Fragment.Alike

variable {a a' b b' : Fragment}

theorem refl (a : Fragment) : a.Alike A a := ⟨.refl _, fun _ => .inl, fun _ => rfl⟩

theorem append (ha : a.Alike A a') (hb : b.Alike A b') : (a ++ b).Alike A (a' ++ b') where
  text := ha.text.append hb.text
  names p hp := by
    rw [names_append, Dict.mem_keys_merge] at hp ⊢
    rcases hp with hp | hp
    · exact (ha.names p hp).imp .inl id
    · exact (hb.names p hp).imp .inr id
  values placeholder := by
    rw [values_append, values_append, Dict.get?_merge, Dict.get?_merge, ha.values, hb.values]

theorem enclose (before after : String) (ha : a.Alike A a') :
    (Fragment.enclose before a after).Alike A (Fragment.enclose before a' after) :=
  ((refl _).append ha).append (refl _)

theorem join (separator : String) {fragments fragments' : List Fragment}
    (h : List.Forall₂ (Fragment.Alike A) fragments fragments') :
    (Fragment.join separator fragments).Alike A (Fragment.join separator fragments') := by
  induction h with
  | nil => exact refl _
  | cons ha hrest ih =>
    cases hrest with
    | nil => exact ha
    | cons hb hrest => exact (ha.append (refl _)).append ih

theorem call (function : String) {fragments fragments' : List Fragment}
    (h : List.Forall₂ (Fragment.Alike A) fragments fragments') :
    (Fragment.call function fragments).Alike A (Fragment.call function fragments') :=
  (join ", " h).enclose _ _

end Fragment.Alike

/-! ## Paths and operands -/

/-- Resolved paths that differ in which of its placeholders a field goes by. -/
structure ResolvedPath.Alike (A : String → String → Prop) (path path' : ResolvedPath) : Prop where
  fragment : path.fragment.Alike A path'.fragment
  literal : path'.literal = path.literal
  type? : path'.type? = path.type?

/-- What a field on the path may go by according to the one relation, it may go by according to the
other. -/
def Path.Covered (A B : String → String → Prop) (path : Path) : Prop :=
  ∀ field ∈ path.fieldNames, ∀ p, A p field → B p field

/-- The placeholders of some fields. -/
theorem bindFields_simulates (fields : List (Field n))
    (hfields : ∀ field ∈ fields, ∀ p, A p field.name → B p field.name) (names names' : Dict String)
    (hnames : ∀ p ∈ names.keys, p ∈ names'.keys ∨ ∃ field, B p field) :
    Simulates A (fun d d' => ∀ p ∈ d.keys, p ∈ d'.keys ∨ ∃ field, B p field)
      (bindFields fields names) (bindFields fields names') := by
  induction fields generalizing names names' with
  | nil => exact .pure hnames
  | cons field rest ih =>
    obtain ⟨hfield, hrest⟩ := List.forall_mem_cons.mp hfields
    have hbind : Simulates A (SamePlaceholder A field.name)
        (Compile.bindName field.name field.code) (Compile.bindName field.name field.code) :=
      .step fun ctx ctx' mid p halike hrun => halike.bindName hrun
    refine hbind.bind fun p p' hsame => ih hrest _ _ fun other hother => ?_
    rw [Dict.mem_keys_insert] at hother ⊢
    rcases hother with rfl | hother
    · rcases hsame with rfl | ⟨hp, -⟩
      · exact .inl (.inl rfl)
      · exact .inr ⟨_, hfield other hp⟩
    · exact (hnames other hother).imp .inr id

/-- **A path resolves to paths that are alike**, if an empty placeholder is none of several that a
field on it may go by. -/
theorem Path.resolve_simulates (hempty : ∀ field, ¬B "" field) (path : Path)
    (hpath : path.Covered A B) :
    Simulates A (ResolvedPath.Alike B) (path.resolve family of) (path.resolve family of) := by
  unfold Path.resolve
  have hsame : ∀ {α : Type} (result : Except ExpressionError α),
      Simulates A (fun a b => result = .ok a ∧ b = a) (Compile.ofExcept result)
        (Compile.ofExcept result) := fun result => .ofExcept fun a ha => ⟨a, ha, ha, rfl⟩
  refine (hsame path.literal).bind fun literal _ heq => ?_
  obtain ⟨-, rfl⟩ := heq
  refine (hsame _).bind fun ⟨fields, place⟩ _ heq => ?_
  obtain ⟨hwalk, rfl⟩ := heq
  have hfields : ∀ field ∈ fields, ∀ p, A p field.name → B p field.name := by
    intro field hfield
    refine hpath field.name ?_
    rw [Path.fieldNames_eq, ← (Family.map_name_walk hwalk).1]
    exact List.mem_map_of_mem hfield
  refine (bindFields_simulates fields hfields ∅ ∅ nofun).bind fun names names' hnames =>
    Compile.Simulates.get.bind fun ctx ctx' halike => ?_
  have htext : Simulates A (TextsAlike B) (Compile.ofExcept (path.withNames ctx.names))
      (Compile.ofExcept (path.withNames ctx'.names)) := by
    refine .ofExcept fun text hrun => ?_
    rw [Path.withNames, Path.render] at hrun ⊢
    split at hrun
    · cases hrun
    · next hroot =>
      rw [if_neg hroot]
      refine Path.renderSegments_alike hempty (fun name hname p hp => ?_) (.refl "") Iff.rfl hrun
      rw [← Path.fieldNames_eq] at hname
      have hbound := halike.names name
      generalize ctx.names.get? name = bound, ctx'.names.get? name = bound' at hbound hp
      cases hbound with
      | none => cases hp
      | some hsame =>
        cases hp
        exact ⟨_, rfl, hsame.imp id (.imp (hpath name hname _) (hpath name hname _))⟩
  exact htext.bind fun text text' htext =>
    .pure ⟨⟨htext, hnames, fun _ => rfl⟩, rfl, rfl⟩

theorem bindValue_simulates (value : AttributeValue) :
    Simulates A Eq (Compile.bindValue value) (Compile.bindValue value) := by
  refine .step fun ctx ctx' mid bound halike hrun => ?_
  obtain ⟨mid', hrun', hmid⟩ := halike.bindValue hrun
  exact ⟨bound, mid', hrun', rfl, hmid⟩

theorem ResolvedPath.Alike.bindOperand_simulates {path path' : ResolvedPath}
    (h : path.Alike B path') (value : AttributeValue) :
    Simulates A Eq (path.bindOperand value) (path'.bindOperand value) := by
  rw [ResolvedPath.bindOperand, ResolvedPath.bindOperand, h.type?, h.literal]
  split
  · exact bindValue_simulates value
  · exact .ite (bindValue_simulates value) (.throw _)

/-! ## Conditions -/

/-- Conditions that differ in the order of the entries of the caller's texts, with related paths. -/
inductive ConditionTree.Reordered {P V : Type} (R : P → P → Prop) :
    ConditionTree P V → ConditionTree P V → Prop
  | fixed (text : String) {names names' : Dict String} {values values' : Dict AttributeValue}
    (hnames : names.entries.Perm names'.entries) (hvalues : values.entries.Perm values'.entries) :
    Reordered R (.fixed text names values) (.fixed text names' values')
  | existence {path path' : P} (hpath : R path path') (expected : Bool) :
    Reordered R (.existence path expected) (.existence path' expected)
  | hasType {path path' : P} (hpath : R path path') (tag : V) :
    Reordered R (.hasType path tag) (.hasType path' tag)
  | compare {path path' : P} (hpath : R path path') (comparison : Comparison) (operand : V) :
    Reordered R (.compare path comparison operand) (.compare path' comparison operand)
  | compareField {path path' other other' : P} (hpath : R path path') (comparison : Comparison)
    (hother : R other other') :
    Reordered R (.compareField path comparison other) (.compareField path' comparison other')
  | between {path path' : P} (hpath : R path path') (low high : V) :
    Reordered R (.between path low high) (.between path' low high)
  | beginsWith {path path' : P} (hpath : R path path') (start : V) :
    Reordered R (.beginsWith path start) (.beginsWith path' start)
  | contains {path path' : P} (hpath : R path path') (operand : V) :
    Reordered R (.contains path operand) (.contains path' operand)
  | oneOf {path path' : P} (hpath : R path path') (candidates : List V) :
    Reordered R (.oneOf path candidates) (.oneOf path' candidates)
  | group (connective : Connective) {operands operands' : List (ConditionTree P V)}
    (h : List.Forall₂ (Reordered R) operands operands') :
    Reordered R (.group connective operands) (.group connective operands')
  | not {operand operand' : ConditionTree P V} (h : Reordered R operand operand') :
    Reordered R (.not operand) (.not operand')

/-- The same condition, with the entries of the caller's texts in another order. -/
abbrev Condition.Reordered : Condition → Condition → Prop := ConditionTree.Reordered Eq

namespace ConditionTree.Reordered

variable {P V : Type} {R : P → P → Prop}

/-- Induction over conditions that differ in the order of entries, where the operands of a group
know their property one by one. -/
@[elab_as_elim]
theorem induct {motive : ∀ c c' : ConditionTree P V, Reordered R c c' → Prop}
    (fixed : ∀ (text : String) {names names' : Dict String} {values values' : Dict AttributeValue}
      (hnames : names.entries.Perm names'.entries) (hvalues : values.entries.Perm values'.entries),
      motive _ _ (.fixed text hnames hvalues))
    (existence : ∀ {path path' : P} (hpath : R path path') (expected : Bool),
      motive _ _ (.existence hpath expected))
    (hasType : ∀ {path path' : P} (hpath : R path path') (tag : V),
      motive _ _ (.hasType hpath tag))
    (compare : ∀ {path path' : P} (hpath : R path path') (comparison : Comparison) (operand : V),
      motive _ _ (.compare hpath comparison operand))
    (compareField : ∀ {path path' other other' : P} (hpath : R path path')
      (comparison : Comparison) (hother : R other other'),
      motive _ _ (.compareField hpath comparison hother))
    (between : ∀ {path path' : P} (hpath : R path path') (low high : V),
      motive _ _ (.between hpath low high))
    (beginsWith : ∀ {path path' : P} (hpath : R path path') (start : V),
      motive _ _ (.beginsWith hpath start))
    (contains : ∀ {path path' : P} (hpath : R path path') (operand : V),
      motive _ _ (.contains hpath operand))
    (oneOf : ∀ {path path' : P} (hpath : R path path') (candidates : List V),
      motive _ _ (.oneOf hpath candidates))
    (group : ∀ (connective : Connective) {operands operands' : List (ConditionTree P V)}
      (h : List.Forall₂ (Reordered R) operands operands'),
      List.Forall₂ (fun c c' => ∃ h, motive c c' h) operands operands' →
        motive _ _ (.group connective h))
    (not : ∀ {operand operand' : ConditionTree P V} (h : Reordered R operand operand'),
      motive _ _ h → motive _ _ (.not h))
    {c c' : ConditionTree P V} (h : Reordered R c c') : motive c c' h :=
  @Reordered.rec P V R motive
    (fun operands operands' _ => List.Forall₂ (fun c c' => ∃ h, motive c c' h) operands operands')
    fixed existence hasType compare compareField between beginsWith contains oneOf group not
    .nil (fun h _ hmotive ih => .cons ⟨h, hmotive⟩ ih) c c' h

theorem symm (hR : ∀ {p p'}, R p p' → R p' p) {c c' : ConditionTree P V} (h : Reordered R c c') :
    Reordered R c' c := by
  induction h using induct with
  | fixed text hnames hvalues => exact .fixed text hnames.symm hvalues.symm
  | existence hpath expected => exact .existence (hR hpath) expected
  | hasType hpath tag => exact .hasType (hR hpath) tag
  | compare hpath comparison operand => exact .compare (hR hpath) comparison operand
  | compareField hpath comparison hother => exact .compareField (hR hpath) comparison (hR hother)
  | between hpath low high => exact .between (hR hpath) low high
  | beginsWith hpath start => exact .beginsWith (hR hpath) start
  | contains hpath operand => exact .contains (hR hpath) operand
  | oneOf hpath candidates => exact .oneOf (hR hpath) candidates
  | group connective _ ih =>
    exact .group connective (ih.flip.imp fun _ _ hoperand => hoperand.2)
  | not _ ih => exact .not ih

theorem paths_forall₂ {c c' : ConditionTree P V} (h : Reordered R c c') :
    List.Forall₂ R c.paths c'.paths := by
  induction h using induct with
  | fixed => exact .nil
  | compareField hpath _ hother => exact .cons hpath (.cons hother .nil)
  | group connective hoperands ih =>
    rw [paths, paths]
    clear hoperands
    induction ih with
    | nil => exact .nil
    | cons hoperand _ ih =>
      rw [pathsOfAll, pathsOfAll]
      obtain ⟨-, hoperand⟩ := hoperand
      exact List.rel_append hoperand ih
  | not _ ih => exact ih
  | existence hpath | hasType hpath | compare hpath | between hpath | beginsWith hpath
  | contains hpath | oneOf hpath => exact .cons hpath .nil

theorem paths_eq {c c' : ConditionTree P V} (h : Reordered Eq c c') : c'.paths = c.paths := by
  have hpaths := h.paths_forall₂
  rw [List.forall₂_eq_eq_eq] at hpaths
  exact hpaths.symm

/-- The texts of the caller have the same entries. -/
theorem fixedTexts_forall₂ {c c' : ConditionTree P V} (h : Reordered R c c') :
    List.Forall₂ (fun text text' => text.names.entries.Perm text'.names.entries ∧
      text.values.entries.Perm text'.values.entries) c.fixedTexts c'.fixedTexts := by
  induction h using induct with
  | fixed text hnames hvalues => exact .cons ⟨hnames, hvalues⟩ .nil
  | group connective hoperands ih =>
    rw [fixedTexts, fixedTexts]
    clear hoperands
    induction ih with
    | nil => exact .nil
    | cons hoperand _ ih =>
      rw [fixedTextsOfAll, fixedTextsOfAll]
      obtain ⟨-, hoperand⟩ := hoperand
      exact List.rel_append hoperand ih
  | not _ ih => exact ih
  | _ => exact .nil

end ConditionTree.Reordered

namespace Condition

open ConditionTree

theorem resolveAll_reordered {operands operands' : List Condition}
    (h : List.Forall₂ (fun c c' => Simulates A (ConditionTree.Reordered (ResolvedPath.Alike B))
      (resolve family of c) (resolve family of c')) operands operands') :
    Simulates A (List.Forall₂ (ConditionTree.Reordered (ResolvedPath.Alike B)))
      (resolveAll family of operands) (resolveAll family of operands') := by
  induction h with
  | nil => exact .pure .nil
  | cons hoperand _ ih =>
    rw [resolveAll, resolveAll]
    exact hoperand.bind fun _ _ hfirst => ih.bind fun _ _ hrest => .pure (.cons hfirst hrest)

/-- A path, then a value beside it. -/
theorem beside_simulates {path : Path} (hpath : Simulates A (ResolvedPath.Alike B)
      (path.resolve family of) (path.resolve family of))
    {bind : ResolvedPath → AttributeValue → Compile BoundValue}
    (hbind : ∀ {path path' : ResolvedPath}, path.Alike B path' → ∀ value,
      Simulates A Eq (bind path value) (bind path' value)) (value : AttributeValue)
    {build : ResolvedPath → BoundValue → ResolvedCondition}
    (hbuild : ∀ {path path' : ResolvedPath}, path.Alike B path' → ∀ value,
      ConditionTree.Reordered (ResolvedPath.Alike B) (build path value) (build path' value)) :
    Simulates A (ConditionTree.Reordered (ResolvedPath.Alike B))
      (do
        let path ← path.resolve family of
        let value ← bind path value
        return build path value)
      (do
        let path ← path.resolve family of
        let value ← bind path value
        return build path value) := by
  refine hpath.bind fun _ _ hpath => (hbind hpath value).bind fun bound _ heq => ?_
  subst heq
  exact .pure (hbuild hpath bound)

/-- **A condition in another order is resolved alike.** -/
theorem resolve_reordered (hempty : ∀ field, ¬B "" field) {condition condition' : Condition}
    (h : condition.Reordered condition')
    (htexts : ∀ text ∈ condition.fixedTexts, ∀ p q field, text.names.get? p = some field →
      text.names.get? q = some field → p ≠ q → A p field)
    (hpaths : ∀ path ∈ condition.paths, path.Covered A B) :
    Simulates A (ConditionTree.Reordered (ResolvedPath.Alike B)) (condition.resolve family of)
      (condition'.resolve family of) := by
  have hresolve : ∀ path : Path, path.Covered A B →
      Simulates A (ResolvedPath.Alike B) (path.resolve family of) (path.resolve family of) :=
    fun path => path.resolve_simulates hempty
  induction h using Reordered.induct with
  | fixed text hnames hvalues =>
    rw [resolve, resolve]
    refine (Compile.forM_reserveName_simulates hnames (htexts _ (List.mem_singleton_self _))).bind
      fun _ _ _ => (Compile.forM_reserveValue_simulates hvalues).bind fun _ _ _ => ?_
    exact .pure (.fixed text hnames hvalues)
  | existence hpath expected =>
    subst hpath
    rw [resolve]
    have hresolve := hresolve _ (hpaths _ List.mem_cons_self)
    exact hresolve.bind fun _ _ hpath => .pure (.existence hpath expected)
  | hasType hpath tag =>
    subst hpath
    rw [resolve]
    have hresolve := hresolve _ (hpaths _ List.mem_cons_self)
    exact beside_simulates hresolve (fun _ => bindValue_simulates) tag .hasType
  | compare hpath comparison operand =>
    subst hpath
    rw [resolve]
    have hresolve := hresolve _ (hpaths _ List.mem_cons_self)
    exact beside_simulates hresolve ResolvedPath.Alike.bindOperand_simulates operand
      fun hpath operand => .compare hpath comparison operand
  | compareField hpath comparison hother =>
    subst hpath hother
    rw [resolve]
    obtain ⟨hpath, hother⟩ := List.forall_mem_cons.mp hpaths
    exact (hresolve _ hpath).bind fun _ _ hpath =>
      (hresolve _ (List.forall_mem_singleton.mp hother)).bind fun _ _ hother =>
        .pure (.compareField hpath comparison hother)
  | between hpath low high =>
    subst hpath
    rw [resolve]
    have hresolve := hresolve _ (hpaths _ List.mem_cons_self)
    refine hresolve.bind fun _ _ hpath => (hpath.bindOperand_simulates low).bind fun low _ heq =>
      (hpath.bindOperand_simulates high).bind fun high _ heq' => ?_
    subst heq heq'
    exact .pure (.between hpath low high)
  | beginsWith hpath start =>
    subst hpath
    rw [resolve]
    have hresolve := hresolve _ (hpaths _ List.mem_cons_self)
    exact beside_simulates hresolve ResolvedPath.Alike.bindOperand_simulates start .beginsWith
  | contains hpath operand =>
    subst hpath
    rw [resolve]
    have hresolve := hresolve _ (hpaths _ List.mem_cons_self)
    exact beside_simulates hresolve (fun _ => bindValue_simulates) operand .contains
  | oneOf hpath candidates =>
    subst hpath
    rw [resolve]
    have hresolve := hresolve _ (hpaths _ List.mem_cons_self)
    refine .ite (.throw_bind _ _) (hresolve.bind fun _ _ hpath => ?_)
    refine (Simulates.mapM candidates fun value _ => hpath.bindOperand_simulates value).bind
      fun bound _ heq => ?_
    subst heq
    exact .pure (.oneOf hpath bound)
  | @group connective operands operands' hoperands ih =>
    rw [resolve, resolve]
    have hempty' : operands'.isEmpty = operands.isEmpty := by
      cases hoperands <;> rfl
    rw [hempty']
    refine .ite (.throw_bind _ _) ((resolveAll_reordered ?_).bind fun _ _ hoperands =>
      .pure (.group connective hoperands))
    clear hoperands hempty'
    rw [fixedTexts] at htexts
    rw [paths] at hpaths
    induction ih with
    | nil => exact .nil
    | cons hoperand _ ih =>
      obtain ⟨htext, htexts⟩ := List.forall_mem_append.mp htexts
      obtain ⟨hpath, hpaths⟩ := List.forall_mem_append.mp hpaths
      obtain ⟨-, hoperand⟩ := hoperand
      exact .cons (hoperand htext hpath) (ih htexts hpaths)
  | not _ ih =>
    rw [resolve, resolve]
    exact (ih htexts hpaths).bind fun _ _ h => .pure (.not h)

end Condition

/-- **A condition in another order has a fragment that is alike.** -/
theorem ResolvedCondition.fragment_alike {condition condition' : ResolvedCondition}
    (h : ConditionTree.Reordered (ResolvedPath.Alike A) condition condition') :
    (fragment condition).Alike A (fragment condition') := by
  have hvalue : ∀ value : BoundValue, value.fragment.Alike A value.fragment :=
    fun value => .refl _
  induction h using ConditionTree.Reordered.induct with
  | fixed text hnames hvalues =>
    refine ⟨.refl text, fun p hp => .inl ?_, (Dict.perm_entries_iff ..).mp hvalues⟩
    exact (hnames.map Prod.fst).mem_iff.mp hp
  | existence hpath expected =>
    cases expected <;> exact .call _ (.cons hpath.fragment .nil)
  | hasType hpath | beginsWith hpath | contains hpath =>
    exact .call _ (.cons hpath.fragment (.cons (hvalue _) .nil))
  | compare hpath =>
    exact .join _ (.cons hpath.fragment (.cons (hvalue _) .nil))
  | compareField hpath _ hother =>
    exact .join _ (.cons hpath.fragment (.cons hother.fragment .nil))
  | between hpath low high =>
    exact (hpath.fragment.append (.refl _)).append (.refl _)
  | oneOf hpath candidates =>
    rw [fragment, fragment]
    exact hpath.fragment.append (.refl _)
  | group connective _ ih =>
    rw [fragment, fragment, enclosed_eq, enclosed_eq]
    refine .join _ (List.forall₂_map_left_iff.mpr (List.forall₂_map_right_iff.mpr ?_))
    exact ih.imp fun _ _ hoperand => hoperand.2.enclose _ _
  | not _ ih =>
    rw [fragment, fragment]
    exact ih.enclose _ _

/-! ## What the order can change -/

namespace Condition

/-- Some text of the caller gives a field a placeholder, and another one too. -/
def GivesSeveral (condition : Condition) (placeholder field : String) : Prop :=
  ∃ text ∈ condition.fixedTexts, text.names.get? placeholder = some field ∧
    ∃ other, other ≠ placeholder ∧ text.names.get? other = some field

/-- A placeholder of a field on a path to which some text of the caller gives several. -/
def Interchangeable (condition : Condition) (placeholder field : String) : Prop :=
  condition.GivesSeveral placeholder field ∧ ∃ path ∈ condition.paths, field ∈ path.fieldNames

variable {condition condition' : Condition}

theorem GivesSeveral.of_reordered {p field : String} (hgives : condition.GivesSeveral p field)
    (h : condition.Reordered condition') : condition'.GivesSeveral p field := by
  obtain ⟨text, htext, hp, other, hne, hother⟩ := hgives
  obtain ⟨text', htext', hnames, -⟩ := exists_mem_of_forall₂ (h.symm Eq.symm).fixedTexts_forall₂
    text htext
  have hget := (Dict.perm_entries_iff ..).mp hnames
  exact ⟨text', htext', (hget p).symm.trans hp, other, hne, (hget other).symm.trans hother⟩

/-- The order of the entries does not tell which placeholders there are. -/
theorem interchangeable_eq (h : condition.Reordered condition') :
    condition'.Interchangeable = condition.Interchangeable := by
  funext p field
  rw [Interchangeable, Interchangeable, h.paths_eq]
  refine propext (and_congr_left fun _ => ⟨fun hgives => ?_, fun hgives => ?_⟩)
  · exact hgives.of_reordered (h.symm Eq.symm)
  · exact hgives.of_reordered h

/-- What compiles in one order compiles in the other, to a fragment that is alike. -/
theorem compile_simulates (h : condition.Reordered condition')
    (hempty : ∀ field, ¬condition.Interchangeable "" field) :
    Simulates condition.GivesSeveral (Fragment.Alike condition.Interchangeable)
      (condition.compile family of) (condition'.compile family of) := by
  have htexts : ∀ text ∈ condition.fixedTexts, ∀ p q field, text.names.get? p = some field →
      text.names.get? q = some field → p ≠ q → condition.GivesSeveral p field :=
    fun text htext p q field hp hq hne => ⟨text, htext, hp, q, hne.symm, hq⟩
  have hpaths : ∀ path ∈ condition.paths,
      path.Covered condition.GivesSeveral condition.Interchangeable :=
    fun path hpath field hfield p hgives => ⟨hgives, path, hpath, hfield⟩
  unfold Condition.compile
  exact (resolve_reordered hempty h htexts hpaths).bind fun _ _ hresolved =>
    .pure (ResolvedCondition.fragment_alike hresolved)

/-- The names of a compiled condition belong to their fields, and those that the caller gave are
among them. -/
theorem compile_declares (condition : Condition) :
    Compile.Spec (fun ctx => ctx.Linked) (condition.compile family of) fun _ fragment ctx' =>
      (∀ {p field}, fragment.names.get? p = some field → ctx'.owners.get? p = some field) ∧
        ∀ {p field}, condition.GivesSeveral p field → p ∈ fragment.names.keys := by
  have hlasting : Lasting fun text ctx => ∀ {p field}, text.names.get? p = some field →
      ctx.owners.get? p = some field := fun _ _ _ hle h _ _ hp => hle.owners (h hp)
  have hreserves : Compile.Spec (fun ctx => ctx.Linked) (condition.resolve family of) _ :=
    resolve_reserves hlasting condition fun text _ => text.reserve_declares.imp fun _ _ _ h => h.1
  have hresolves : Compile.Spec (fun ctx => ctx.Linked) (condition.resolve family of) _ :=
    resolve_spec Context.stable_linked condition fun text _ => Context.admits_linked text
  unfold Condition.compile
  refine ((hresolves.and hreserves).bind fun _ _ => .pure _).imp ?_
  rintro ctx _ ctx' - hlinked - ⟨resolved, _, ⟨⟨hsource, hresolved⟩, htexts⟩, -, -, -, rfl, rfl⟩
  have hfixed : resolved.fixedTexts = condition.fixedTexts := by
    rw [← hsource]
    exact (ConditionTree.fixedTexts_map ..).symm
  have hgathers := ResolvedCondition.gathers resolved
  constructor
  · intro p field hp
    obtain ⟨leaf, hleaf, hp⟩ := hgathers.exists_name hp
    rcases List.mem_append.mp hleaf with hleaf | htext
    · rcases List.mem_append.mp hleaf with hpath | hliteral
      · obtain ⟨path, hmem, rfl⟩ := List.mem_map.mp hpath
        exact ((hresolved.paths path hmem).agreesWith hlinked).names hp
      · obtain ⟨bound, -, rfl⟩ := List.mem_map.mp hliteral
        cases hp
    · exact htexts leaf (hfixed ▸ htext) hp
  · rintro p field ⟨text, htext, hp, -⟩
    refine hgathers.names_subset text ?_ p (Dict.mem_keys_of_get? hp)
    exact List.mem_append_right _ (hfixed ▸ htext)

section Runs

variable {ctx ctx' : Context} {fragment fragment' : Fragment}

/-- The fragments and the contexts of two orders are alike. -/
theorem compile_alike (h : condition.Reordered condition')
    (hempty : ∀ field, ¬condition.Interchangeable "" field) {alphabet : String}
    (hrun : (condition.compile family of).runOn (.fresh alphabet) = (.ok fragment, ctx))
    (hrun' : (condition'.compile family of).runOn (.fresh alphabet) = (.ok fragment', ctx')) :
    fragment.Alike condition.Interchangeable fragment' ∧
      ctx.Alike condition.GivesSeveral ctx' := by
  obtain ⟨_, _, heq, halike, hctx⟩ := compile_simulates h hempty _ _ _ _ (.refl _) hrun
  cases hrun'.symm.trans heq
  exact ⟨halike, hctx⟩

/-- A placeholder that is in the one fragment only because of the order was given by the caller, and
what the caller gave is in both. -/
theorem mem_names_of_reordered (h : condition.Reordered condition')
    (hempty : ∀ field, ¬condition.Interchangeable "" field) {alphabet : String}
    (hrun : (condition.compile family of).runOn (.fresh alphabet) = (.ok fragment, ctx))
    (hrun' : (condition'.compile family of).runOn (.fresh alphabet) = (.ok fragment', ctx'))
    {p : String} (hp : p ∈ fragment.names.keys) : p ∈ fragment'.names.keys := by
  obtain ⟨halike, -⟩ := compile_alike h hempty hrun hrun'
  obtain ⟨-, hgiven⟩ := (compile_declares condition').result (Context.linked_fresh _) hrun'
  rcases halike.names p hp with hp | ⟨field, hgives, -⟩
  · exact hp
  · exact hgiven (hgives.of_reordered h)

end Runs

/-- **What the order of the entries can change.**  A condition whose texts of the caller list their
placeholders in another order compiles if it compiles in the one order, with the same names and the
same values.  The two texts are alike: only where a path has a field to which some text of the
caller gives several placeholders can one of these stand for another. -/
theorem compile_reordered (family : Family n) (of : Fin n) (alphabet : String)
    (condition condition' : Condition) (h : condition.Reordered condition')
    (hempty : ∀ field, ¬condition.Interchangeable "" field) :
    ((∃ fragment, (condition.compile family of).runFresh alphabet = .ok fragment) ↔
      ∃ fragment', (condition'.compile family of).runFresh alphabet = .ok fragment') ∧
    ∀ fragment fragment', (condition.compile family of).runFresh alphabet = .ok fragment →
      (condition'.compile family of).runFresh alphabet = .ok fragment' →
        (∀ placeholder, fragment'.names.get? placeholder = fragment.names.get? placeholder) ∧
        (∀ placeholder, fragment'.values.get? placeholder = fragment.values.get? placeholder) ∧
        TextsAlike condition.Interchangeable fragment.text fragment'.text ∧
        ((∀ placeholder field, ¬condition.Interchangeable placeholder field) →
          fragment.text = fragment'.text) := by
  have hback := h.symm Eq.symm
  have hempty' : ∀ field, ¬condition'.Interchangeable "" field := by
    rwa [interchangeable_eq h]
  simp only [Compile.runFresh_eq_ok_iff]
  refine ⟨⟨?_, ?_⟩, ?_⟩
  · rintro ⟨fragment, ctx, hrun⟩
    obtain ⟨fragment', ctx', hrun', -⟩ := compile_simulates h hempty _ _ _ _ (.refl _) hrun
    exact ⟨fragment', ctx', hrun'⟩
  · rintro ⟨fragment', ctx', hrun'⟩
    obtain ⟨fragment, ctx, hrun, -⟩ := compile_simulates hback hempty' _ _ _ _ (.refl _) hrun'
    exact ⟨fragment, ctx, hrun⟩
  · rintro fragment fragment' ⟨ctx, hrun⟩ ⟨ctx', hrun'⟩
    obtain ⟨halike, hctx⟩ := compile_alike h hempty hrun hrun'
    refine ⟨fun p => ?_, halike.values, halike.text, halike.text.eq_of_forall_not⟩
    obtain ⟨howned, -⟩ := (compile_declares condition).result (Context.linked_fresh _) hrun
    obtain ⟨howned', -⟩ := (compile_declares condition').result (Context.linked_fresh _) hrun'
    -- The same placeholders are there, and they belong to the same fields.
    cases hp : fragment.names.get? p with
    | none =>
      rw [Dict.get?_eq_none_iff] at hp ⊢
      exact fun hmem => hp (mem_names_of_reordered hback hempty' hrun' hrun hmem)
    | some field =>
      have hmem := mem_names_of_reordered h hempty hrun hrun' (Dict.mem_keys_of_get? hp)
      obtain ⟨field', hp'⟩ := (Dict.mem_keys_iff ..).mp hmem
      rw [hp', ← howned' hp', hctx.owners, howned hp]

/-- Two placeholders for the label of a shelf, listed in both orders: the label goes by the one that
comes first. -/
theorem compile_reordered_label :
    let condition (names : Dict String) : Condition :=
      .group .and [.fixed "#a = #b" names ∅, .existence (.ofName "label") true]
    let first := condition ⟨[("#a", "label"), ("#b", "label")], by decide⟩
    let second := condition ⟨[("#b", "label"), ("#a", "label")], by decide⟩
    ∃ fragment fragment', (first.compile shelves 0).runFresh "ABC" = .ok fragment ∧
      (second.compile shelves 0).runFresh "ABC" = .ok fragment' ∧
      fragment.text = "( #a = #b ) and ( attribute_exists(#a) )" ∧
      fragment'.text = "( #a = #b ) and ( attribute_exists(#b) )" ∧
      (∀ placeholder, fragment'.names.get? placeholder = fragment.names.get? placeholder) ∧
      ∀ placeholder, fragment'.values.get? placeholder = fragment.values.get? placeholder := by
  intro condition first second
  have hreordered : first.Reordered second :=
    .group .and (.cons (.fixed _ (.swap ..) .nil) (.cons (.existence rfl true) .nil))
  have hempty : ∀ field, ¬first.Interchangeable "" field := by
    rintro field ⟨⟨text, htext, hp, -⟩, -⟩
    cases List.mem_singleton.mp htext
    cases hp
  have hfirst : ((first.compile shelves 0).runFresh "ABC").toOption.map Fragment.text =
      some "( #a = #b ) and ( attribute_exists(#a) )" := by
    decide +kernel
  have hsecond : ((second.compile shelves 0).runFresh "ABC").toOption.map Fragment.text =
      some "( #a = #b ) and ( attribute_exists(#b) )" := by
    decide +kernel
  obtain ⟨fragment, hrun, htext⟩ := Except.exists_of_toOption hfirst
  obtain ⟨fragment', hrun', htext'⟩ := Except.exists_of_toOption hsecond
  obtain ⟨-, hsame⟩ := compile_reordered shelves 0 "ABC" first second hreordered hempty
  obtain ⟨hnames, hvalues, -⟩ := hsame fragment fragment' hrun hrun'
  exact ⟨fragment, fragment', hrun, hrun', htext, htext', hnames, hvalues⟩

/-- An empty placeholder is not told from nothing, so in one order the ordinal has no text before
it and the condition does not compile. -/
example :
    let condition (names : Dict String) : Condition :=
      .group .and [.fixed "#a = #a" names ∅, .existence ((Path.ofName "books").element 0) true]
    let first := condition ⟨[("#a", "books"), ("", "books")], by decide⟩
    let second := condition ⟨[("", "books"), ("#a", "books")], by decide⟩
    ((first.compile shelves 0).runFresh "ABC").toOption.map Fragment.text =
        some "( #a = #a ) and ( attribute_exists(#a[0]) )" ∧
      ((second.compile shelves 0).runFresh "ABC").toOption.isNone := by
  decide +kernel

end Condition

end DocExpr
