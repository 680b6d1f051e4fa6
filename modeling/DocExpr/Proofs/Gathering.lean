import DocExpr.Proofs.Composition
import DocExpr.Proofs.Reordering
import DocExpr.Proofs.Resolution

/-!
# Fragments gather what their placeholders mean

A fragment that is put together from others merges their dictionaries, and a merge lets a later
entry take the place of an earlier one.  No entry is lost in this way if all the parts agree with
one context: then what takes the place of an entry is that entry again.

## Main definitions

* `Fragment.AgreesWith`: what a context has for the placeholders of a fragment
* `Fragment.KeptIn`: the entries of one fragment are entries of another
* `Fragment.Compatible`: two fragments give no placeholder two meanings
* `Fragment.Gathers`: the entries of a fragment are those of some parts, and each placeholder of a
  part is there

## Main results

* `Fragment.Gathers.agreesWith`, `Fragment.Gathers.keptIn`: of parts that agree with a context
  nothing is lost
* `ResolvedCondition.gathers`, `ResolvedStatement.gathers`, `updateFragment?_gathers`: expressions
  gather the fragments of their leaves
-/

namespace DocExpr

namespace Context

/-- Every value is well formed. -/
def ValuesWellFormed (ctx : Context) : Prop :=
  ∀ {placeholder : String} {value : AttributeValue}, ctx.values.get? placeholder = some value →
    value.WellFormed

/-- What each placeholder of a context means. -/
def meanings (ctx : Context) : Fragment := { text := "", names := ctx.owners, values := ctx.values }

end Context

namespace Fragment

/-- What the placeholders of a fragment mean is what they mean in a context.  Values are the same up
to the order of the entries of maps. -/
structure AgreesWith (fragment : Fragment) (ctx : Context) : Prop where
  names {placeholder field : String} : fragment.names.get? placeholder = some field →
    ctx.owners.get? placeholder = some field
  values {placeholder : String} {value : AttributeValue} :
    fragment.values.get? placeholder = some value →
      ∃ bound, ctx.values.get? placeholder = some bound ∧ bound.same value = true

/-- Each entry of one fragment is an entry of the other.  Values are the same up to the order of the
entries of maps. -/
structure KeptIn (part whole : Fragment) : Prop where
  names {placeholder field : String} : part.names.get? placeholder = some field →
    whole.names.get? placeholder = some field
  values {placeholder : String} {value : AttributeValue} :
    part.values.get? placeholder = some value →
      ∃ kept, whole.values.get? placeholder = some kept ∧ value.same kept = true

/-- Two fragments give no placeholder two meanings. -/
structure Compatible (a b : Fragment) : Prop where
  names {placeholder field field' : String} : a.names.get? placeholder = some field →
    b.names.get? placeholder = some field' → field = field'
  values {placeholder : String} {value value' : AttributeValue} :
    a.values.get? placeholder = some value → b.values.get? placeholder = some value' →
      value.same value' = true

/-- The entries of a fragment are entries of some parts, and the placeholders of the parts are all
there. -/
structure Gathers (whole : Fragment) (parts : List Fragment) : Prop where
  names_subset : ∀ part ∈ parts, ∀ placeholder ∈ part.names.keys, placeholder ∈ whole.names.keys
  values_subset : ∀ part ∈ parts, ∀ placeholder ∈ part.values.keys,
    placeholder ∈ whole.values.keys
  exists_name {placeholder field : String} : whole.names.get? placeholder = some field →
    ∃ part ∈ parts, part.names.get? placeholder = some field
  exists_value {placeholder : String} {value : AttributeValue} :
    whole.values.get? placeholder = some value →
      ∃ part ∈ parts, part.values.get? placeholder = some value

/-- Several fragments, taken together, gather some parts. -/
structure GatherAll (wholes parts : List Fragment) : Prop where
  subset : ∀ whole ∈ wholes, ∃ own, whole.Gathers own ∧ own ⊆ parts
  cover : ∀ part ∈ parts, ∃ whole ∈ wholes, ∃ own, whole.Gathers own ∧ part ∈ own

variable {a b part whole : Fragment} {parts parts' : List Fragment} {ctx ctx' : Context}

/-! ## Agreement with a context -/

/-- A context that has learned more still agrees. -/
theorem AgreesWith.mono (h : part.AgreesWith ctx) (hle : ctx ≤ ctx') : part.AgreesWith ctx' :=
  ⟨fun hp => hle.owners (h.names hp), fun hp =>
    let ⟨bound, hbound, hsame⟩ := h.values hp
    ⟨bound, hle.values hbound, hsame⟩⟩

theorem AgreesWith.meanings (hwf : ctx.ValuesWellFormed) : ctx.meanings.AgreesWith ctx :=
  ⟨id, fun {_ value} hp => ⟨value, hp, AttributeValue.same_refl (hwf hp)⟩⟩

/-- Fragments that agree with one context agree with one another. -/
theorem AgreesWith.compatible (ha : a.AgreesWith ctx) (hb : b.AgreesWith ctx)
    (hwf : ctx.ValuesWellFormed) : a.Compatible b where
  names hp hp' := Option.some.inj ((ha.names hp).symm.trans (hb.names hp'))
  values hp hp' := by
    obtain ⟨bound, hbound, hsame⟩ := ha.values hp
    obtain ⟨bound', hbound', hsame'⟩ := hb.values hp'
    obtain rfl : bound = bound' := Option.some.inj (hbound.symm.trans hbound')
    exact AttributeValue.same_trans (AttributeValue.same_symm (hwf hbound) hsame) hsame'

/-- A compatible fragment with all the placeholders of a part has its entries. -/
theorem Compatible.keptIn (h : part.Compatible whole)
    (hnames : ∀ placeholder ∈ part.names.keys, placeholder ∈ whole.names.keys)
    (hvalues : ∀ placeholder ∈ part.values.keys, placeholder ∈ whole.values.keys) :
    part.KeptIn whole where
  names {placeholder field} hp := by
    obtain ⟨field', hp'⟩ := (Dict.mem_keys_iff ..).mp (hnames _ (Dict.mem_keys_of_get? hp))
    rw [hp', h.names hp hp']
  values {placeholder value} hp := by
    obtain ⟨kept, hp'⟩ := (Dict.mem_keys_iff ..).mp (hvalues _ (Dict.mem_keys_of_get? hp))
    exact ⟨kept, hp', h.values hp hp'⟩

namespace Gathers

theorem agreesWith (h : whole.Gathers parts) (hparts : ∀ part ∈ parts, part.AgreesWith ctx) :
    whole.AgreesWith ctx where
  names hp :=
    let ⟨part, hpart, hp⟩ := h.exists_name hp
    (hparts part hpart).names hp
  values hp :=
    let ⟨part, hpart, hp⟩ := h.exists_value hp
    (hparts part hpart).values hp

theorem self (a : Fragment) : a.Gathers [a] :=
  ⟨by simp, by simp, fun hp => ⟨a, by simp, hp⟩, fun hp => ⟨a, by simp, hp⟩⟩

/-- Two fragments that are put together from parts which agree with a context: the one with all
parts of the other has its entries. -/
theorem keptIn_of_subset {own : List Fragment} (h : whole.Gathers parts) (hpart : part.Gathers own)
    (hsubset : own ⊆ parts) (hparts : ∀ part ∈ parts, part.AgreesWith ctx)
    (hwf : ctx.ValuesWellFormed) : part.KeptIn whole := by
  have hagrees : part.AgreesWith ctx := hpart.agreesWith fun small hsmall =>
    hparts small (hsubset hsmall)
  -- A placeholder of the one comes from a part that the other gathers as well.
  refine (hagrees.compatible (h.agreesWith hparts) hwf).keptIn (fun placeholder hp => ?_)
    fun placeholder hp => ?_
  · obtain ⟨field, hfield⟩ := (Dict.mem_keys_iff ..).mp hp
    obtain ⟨small, hsmall, hfield⟩ := hpart.exists_name hfield
    exact h.names_subset small (hsubset hsmall) _ (Dict.mem_keys_of_get? hfield)
  · obtain ⟨value, hvalue⟩ := (Dict.mem_keys_iff ..).mp hp
    obtain ⟨small, hsmall, hvalue⟩ := hpart.exists_value hvalue
    exact h.values_subset small (hsubset hsmall) _ (Dict.mem_keys_of_get? hvalue)

/-- **Of parts that agree with a context no entry is lost.** -/
theorem keptIn (h : whole.Gathers parts) (hparts : ∀ part ∈ parts, part.AgreesWith ctx)
    (hwf : ctx.ValuesWellFormed) (hpart : part ∈ parts) : part.KeptIn whole :=
  h.keptIn_of_subset (self part) (by simpa using hpart) hparts hwf

/-! ## Putting fragments together -/

theorem ofText (text : String) : (Fragment.ofText text).Gathers [] :=
  ⟨by simp, by simp, nofun, nofun⟩

theorem append (ha : a.Gathers parts) (hb : b.Gathers parts') :
    (a ++ b).Gathers (parts ++ parts') where
  names_subset part hpart placeholder hp := by
    rw [names_append, Dict.mem_keys_merge]
    exact (List.mem_append.mp hpart).imp (ha.names_subset part · placeholder hp)
      (hb.names_subset part · placeholder hp)
  values_subset part hpart placeholder hp := by
    rw [values_append, Dict.mem_keys_merge]
    exact (List.mem_append.mp hpart).imp (ha.values_subset part · placeholder hp)
      (hb.values_subset part · placeholder hp)
  exists_name hp := by
    rw [names_append, Dict.get?_merge] at hp
    rcases Option.or_eq_some_iff.mp hp with hp | ⟨-, hp⟩
    · obtain ⟨part, hpart, hp⟩ := hb.exists_name hp
      exact ⟨part, List.mem_append_right _ hpart, hp⟩
    · obtain ⟨part, hpart, hp⟩ := ha.exists_name hp
      exact ⟨part, List.mem_append_left _ hpart, hp⟩
  exists_value hp := by
    rw [values_append, Dict.get?_merge] at hp
    rcases Option.or_eq_some_iff.mp hp with hp | ⟨-, hp⟩
    · obtain ⟨part, hpart, hp⟩ := hb.exists_value hp
      exact ⟨part, List.mem_append_right _ hpart, hp⟩
    · obtain ⟨part, hpart, hp⟩ := ha.exists_value hp
      exact ⟨part, List.mem_append_left _ hpart, hp⟩

/-- Which parts there are counts, not their order. -/
theorem congr (h : whole.Gathers parts) (hmem : ∀ part, part ∈ parts ↔ part ∈ parts') :
    whole.Gathers parts' where
  names_subset part hpart := h.names_subset part ((hmem part).mpr hpart)
  values_subset part hpart := h.values_subset part ((hmem part).mpr hpart)
  exists_name hp :=
    let ⟨part, hpart, hp⟩ := h.exists_name hp
    ⟨part, (hmem part).mp hpart, hp⟩
  exists_value hp :=
    let ⟨part, hpart, hp⟩ := h.exists_value hp
    ⟨part, (hmem part).mp hpart, hp⟩

/-- Parts of parts. -/
theorem trans (h : whole.Gathers parts) (hparts : GatherAll parts parts') :
    whole.Gathers parts' where
  names_subset small hsmall placeholder hp := by
    obtain ⟨part, hpart, own, hown, hmem⟩ := hparts.cover small hsmall
    exact h.names_subset part hpart _ (hown.names_subset small hmem placeholder hp)
  values_subset small hsmall placeholder hp := by
    obtain ⟨part, hpart, own, hown, hmem⟩ := hparts.cover small hsmall
    exact h.values_subset part hpart _ (hown.values_subset small hmem placeholder hp)
  exists_name hp := by
    obtain ⟨part, hpart, hp⟩ := h.exists_name hp
    obtain ⟨own, hown, hsub⟩ := hparts.subset part hpart
    obtain ⟨small, hsmall, hp⟩ := hown.exists_name hp
    exact ⟨small, hsub hsmall, hp⟩
  exists_value hp := by
    obtain ⟨part, hpart, hp⟩ := h.exists_value hp
    obtain ⟨own, hown, hsub⟩ := hparts.subset part hpart
    obtain ⟨small, hsmall, hp⟩ := hown.exists_value hp
    exact ⟨small, hsub hsmall, hp⟩

theorem enclose (before after : String) (ha : a.Gathers parts) :
    (Fragment.enclose before a after).Gathers parts := by
  have h := ((ofText before).append ha).append (ofText after)
  rwa [List.nil_append, List.append_nil] at h

theorem join (separator : String) (fragments : List Fragment) :
    (Fragment.join separator fragments).Gathers fragments := by
  induction fragments with
  | nil => exact ofText ""
  | cons a rest ih =>
    cases rest with
    | nil => exact self a
    | cons b rest => exact ((self a).append (ofText separator)).append ih

theorem call (function : String) (fragments : List Fragment) :
    (Fragment.call function fragments).Gathers fragments :=
  (join ", " fragments).enclose _ _

end Gathers

namespace GatherAll

variable {wholes wholes' : List Fragment}

theorem nil : GatherAll [] [] := ⟨by simp, by simp⟩

theorem singleton (h : whole.Gathers parts) : GatherAll [whole] parts :=
  ⟨by simpa using ⟨parts, h, List.Subset.refl _⟩, fun _ hpart =>
    ⟨whole, List.mem_singleton_self _, parts, h, hpart⟩⟩

theorem append (h : GatherAll wholes parts) (h' : GatherAll wholes' parts') :
    GatherAll (wholes ++ wholes') (parts ++ parts') where
  subset whole hwhole := by
    rcases List.mem_append.mp hwhole with hwhole | hwhole
    · obtain ⟨own, hown, hsub⟩ := h.subset whole hwhole
      exact ⟨own, hown, List.subset_append_of_subset_left _ hsub⟩
    · obtain ⟨own, hown, hsub⟩ := h'.subset whole hwhole
      exact ⟨own, hown, List.subset_append_of_subset_right _ hsub⟩
  cover part hpart := by
    rcases List.mem_append.mp hpart with hpart | hpart
    · obtain ⟨whole, hwhole, rest⟩ := h.cover part hpart
      exact ⟨whole, List.mem_append_left _ hwhole, rest⟩
    · obtain ⟨whole, hwhole, rest⟩ := h'.cover part hpart
      exact ⟨whole, List.mem_append_right _ hwhole, rest⟩

/-- Each of some fragments with its own parts. -/
theorem flatMap {α : Type} {l : List α} {f : α → Fragment} {g : α → List Fragment}
    (h : ∀ a ∈ l, (f a).Gathers (g a)) : GatherAll (l.map f) (l.flatMap g) where
  subset := List.forall_mem_map.mpr fun a ha =>
    ⟨g a, h a ha, fun _ hpart => List.mem_flatMap.mpr ⟨a, ha, hpart⟩⟩
  cover part hpart := by
    obtain ⟨a, ha, hpart⟩ := List.mem_flatMap.mp hpart
    exact ⟨f a, List.mem_map_of_mem ha, g a, h a ha, hpart⟩

end GatherAll

end Fragment

open Fragment (Gathers GatherAll)

/-! ## Expressions -/

/-- The fragments of some paths, values and texts of the caller. -/
def leafFragments (paths : List ResolvedPath) (literals : List BoundValue)
    (texts : List Fragment) : List Fragment :=
  paths.map ResolvedPath.fragment ++ literals.map BoundValue.fragment ++ texts

theorem mem_leafFragments_append {paths paths' : List ResolvedPath}
    {literals literals' : List BoundValue} {texts texts' : List Fragment} (fragment : Fragment) :
    fragment ∈ leafFragments paths literals texts ++ leafFragments paths' literals' texts' ↔
      fragment ∈ leafFragments (paths ++ paths') (literals ++ literals') (texts ++ texts') := by
  simp only [leafFragments, List.map_append, List.mem_append]
  tauto

namespace ResolvedCondition

open ConditionTree

/-- The fragments of the leaves of a condition. -/
def leaves (condition : ResolvedCondition) : List Fragment :=
  leafFragments condition.paths condition.literals condition.fixedTexts

/-- The leaves of some operands are those of each. -/
theorem mem_flatMap_leaves (operands : List ResolvedCondition) (a : Fragment) :
    a ∈ operands.flatMap leaves ↔ a ∈ leafFragments (pathsOfAll operands)
      (literalsOfAll operands) (fixedTextsOfAll operands) := by
  induction operands with
  | nil => simp [leafFragments, pathsOfAll, literalsOfAll, fixedTextsOfAll]
  | cons operand rest ih =>
    rw [List.flatMap_cons, List.mem_append, ih, leaves, ← List.mem_append,
      mem_leafFragments_append, pathsOfAll, literalsOfAll, fixedTextsOfAll]

theorem enclosed_eq (operands : List ResolvedCondition) :
    enclosed operands = operands.map fun operand => .enclose "( " operand.fragment " )" := by
  induction operands with
  | nil => rfl
  | cons operand rest ih => rw [enclosed, ih, List.map_cons]

mutual

/-- **A condition gathers its leaves.** -/
theorem gathers : ∀ condition : ResolvedCondition, condition.fragment.Gathers condition.leaves
  | .fixed .. => Gathers.self _
  | .existence _ true | .existence _ false => Gathers.call _ _
  | .hasType .. | .beginsWith .. | .contains .. => Gathers.call _ _
  | .compare .. | .compareField .. => Gathers.join _ _
  | .between .. => ((Gathers.self _).append (Gathers.ofText _)).append (Gathers.join _ _)
  | .oneOf path candidates => by
    have h := (Gathers.self path.fragment).append
      (Gathers.call " in " (candidates.map BoundValue.fragment))
    rw [fragment]
    simpa [leaves, leafFragments, paths, literals, fixedTexts] using h
  | .group _ operands => by
    rw [fragment, enclosed_eq]
    have hoperands : GatherAll (operands.map fun operand => .enclose "( " (fragment operand) " )")
        (operands.flatMap leaves) :=
      .flatMap fun operand hmem => (gathersAll operands operand hmem).enclose _ _
    exact ((Gathers.join _ _).trans hoperands).congr (mem_flatMap_leaves operands)
  | .not operand => (gathers operand).enclose _ _

theorem gathersAll : ∀ operands : List ResolvedCondition,
    ∀ operand ∈ operands, operand.fragment.Gathers operand.leaves
  | [] => by simp
  | operand :: rest => List.forall_mem_cons.mpr ⟨gathers operand, gathersAll rest⟩

end

end ResolvedCondition

namespace ResolvedStatement

/-- The fragments of the leaves of a statement. -/
def leaves (statement : ResolvedStatement) : List Fragment :=
  leafFragments statement.paths statement.literals []

theorem gathers_expr (expr : ResolvedExpr) :
    (ResolvedExpr.fragment expr).Gathers (leafFragments expr.paths expr.literals []) := by
  induction expr with
  | constant value => exact Gathers.self _
  | path path => exact Gathers.self _
  | arithmetic left op right ihl ihr =>
    exact ((ihl.append (Gathers.ofText _)).append ihr).congr fun a => by
      rw [List.append_nil, mem_leafFragments_append]
      rfl
  | listAppend head tail ihh iht =>
    exact (((ihh.append (Gathers.ofText _)).append iht).enclose _ _).congr fun a => by
      rw [List.append_nil, mem_leafFragments_append]
      rfl

/-- **A statement gathers its leaves.**  A target that is written twice is gathered all the same. -/
theorem gathers (statement : ResolvedStatement) : statement.fragment.Gathers statement.leaves := by
  obtain ⟨target, action⟩ := statement
  have hbeside : ∀ (separator : String) (expr : ResolvedExpr),
      (Fragment.join separator [target.fragment, ResolvedExpr.fragment expr]).Gathers
        (leafFragments (target :: expr.paths) expr.literals []) := by
    intro separator expr
    refine (((Gathers.self _).append (Gathers.ofText _)).append
      (gathers_expr expr)).congr fun a => ?_
    simp [leafFragments]
  cases action with
  | set expr overwrite =>
    cases overwrite with
    | true => exact hbeside _ expr
    | false =>
      -- The target stands again inside the function.
      refine (((Gathers.self _).append (Gathers.ofText _)).append
        ((hbeside _ expr).enclose _ _)).congr fun a => ?_
      simp [leaves, leafFragments, StatementOn.paths, StatementOn.literals, Action.expr?]
  | add expr | delete expr => exact hbeside _ expr
  | remove => exact Gathers.self _

end ResolvedStatement

/-- The statements of a clause gather what each of them does. -/
theorem clauseFragment?_gathers {statements : List ResolvedStatement} {clause : Clause}
    {fragment : Fragment} (h : clauseFragment? statements clause = some fragment) :
    fragment.Gathers ((statements.filter fun statement => statement.action.clause = clause).map
      ResolvedStatement.fragment) := by
  simp only [clauseFragment?] at h
  split at h
  · cases h
  · cases h
    exact (Gathers.ofText _).append (Gathers.join _ _)

/-- **The expression of an update gathers its statements.** -/
theorem updateFragment?_gathers {statements : List ResolvedStatement} {fragment : Fragment}
    (h : updateFragment? statements = some fragment) :
    fragment.Gathers (statements.map ResolvedStatement.fragment) := by
  simp only [updateFragment?] at h
  split at h
  · cases h
  · cases h
    refine (Gathers.join " " _).trans ⟨fun clause hclause => ?_, fun part hpart => ?_⟩
    · obtain ⟨which, -, hclause⟩ := List.mem_filterMap.mp hclause
      exact ⟨_, clauseFragment?_gathers hclause, List.map_subset _ List.filter_sublist.subset⟩
    · obtain ⟨statement, hstatement, rfl⟩ := List.mem_map.mp hpart
      obtain ⟨clause, hclause⟩ := exists_clauseFragment? hstatement
      refine ⟨clause, List.mem_filterMap.mpr ⟨_, statement.action.clause.mem_all, hclause⟩, _,
        clauseFragment?_gathers hclause, List.mem_map_of_mem ?_⟩
      simpa using hstatement

/-! ## Leaves agree with the context they were resolved in -/

/-- Every entry of the placeholders of some fields was there before or belongs to a field. -/
theorem get?_insertOwning {names d : Dict String} {fields : List String}
    {placeholder field : String} (h : (insertOwning names fields d).get? placeholder = some field) :
    (field ∈ fields ∧ names.get? field = some placeholder) ∨
      d.get? placeholder = some field := by
  -- A later insertion may take the place of an earlier one, but every entry was inserted.
  have hfold : ∀ {entries : List (String × String)} {d : Dict String},
      (entries.foldl (fun acc entry => acc.insert entry.1 entry.2) d).get? placeholder =
        some field → (placeholder, field) ∈ entries ∨ d.get? placeholder = some field := by
    intro entries
    induction entries with
    | nil => exact .inr
    | cons entry rest ih =>
      intro d hd
      rcases ih hd with hmem | hd
      · exact .inl (List.mem_cons_of_mem _ hmem)
      · rw [Dict.get?_insert] at hd
        split at hd
        · next heq =>
          cases hd
          exact .inl (by rw [← heq]; exact List.mem_cons_self ..)
        · exact .inr hd
  rcases hfold h with hmem | hd
  · obtain ⟨field', hfield, howned⟩ := List.mem_filterMap.mp hmem
    obtain ⟨placeholder', hbound, heq⟩ := Option.map_eq_some_iff.mp howned
    cases heq
    exact .inl ⟨hfield, hbound⟩
  · exact .inr hd

section Leaves

variable {before ctx : Context} (hlinked : ctx.Linked) (hwf : ctx.ValuesWellFormed)

include hlinked

theorem ResolvedPath.BoundIn.agreesWith {path : ResolvedPath} (h : path.BoundIn ctx) :
    path.fragment.AgreesWith ctx where
  names hp := by
    rw [h.names] at hp
    rcases get?_insertOwning hp with ⟨-, hbound⟩ | hempty
    · exact hlinked hbound
    · cases hempty
  values hp := by
    rw [h.values] at hp
    cases hp

include hwf

/-- **What was resolved agrees with the context**, and so do the texts of the caller if they were
reserved there. -/
theorem Resolved.agreesWith {paths : List ResolvedPath} {literals : List BoundValue}
    (h : Resolved before paths literals ctx) {texts : List Fragment}
    (htexts : ∀ text ∈ texts, text.AgreesWith ctx) :
    ∀ leaf ∈ leafFragments paths literals texts, leaf.AgreesWith ctx := by
  intro leaf hleaf
  rcases List.mem_append.mp hleaf with hleaf | htext
  · rcases List.mem_append.mp hleaf with hpath | hliteral
    · obtain ⟨path, hmem, rfl⟩ := List.mem_map.mp hpath
      exact (h.paths path hmem).agreesWith hlinked
    · obtain ⟨bound, hbound, rfl⟩ := List.mem_map.mp hliteral
      refine ⟨nofun, fun {placeholder value} hp => ?_⟩
      rw [BoundValue.fragment, Dict.get?_singleton] at hp
      split at hp
      · next heq =>
        cases hp
        have hvalue := h.minted.bound bound hbound
        exact ⟨bound.value, heq ▸ hvalue, AttributeValue.same_refl (hwf hvalue)⟩
      · cases hp
  · exact htexts leaf htext

end Leaves

end DocExpr
