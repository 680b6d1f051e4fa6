import DocExpr.Proofs.Alike
import DocExpr.Proofs.ConditionMeaning

/-!
# Conditions can be recovered from what they compile to

A compiled condition reads as what its author wrote, and the pieces of a condition tell the
condition.  So two conditions that compile to the same text are the same tree of the same operators,
and if the dictionaries agree as well then also the names and the literals are the same.  It does
not matter in which contexts, and for which schemas, the two were compiled.

## Main results

* `Condition.resolve_isProper`: what resolves has no empty group, and its paths start at a field
* `Condition.compile_reads`: a compiled condition reads as what was written
* `forall₂_alike_of_readText`: two readings of one text are alike
* `Condition.compile_unambiguous`: the condition is recovered
-/

namespace DocExpr

variable {n : Nat} {family : Family n} {of : Fin n} {I : Context → Prop}

/-! ## What compiles is proper -/

/-- A path that is bound starts at a field. -/
theorem ResolvedPath.BoundIn.isNamed {resolved : ResolvedPath} {ctx : Context}
    (h : resolved.BoundIn ctx) : resolved.path.IsNamed := by
  obtain ⟨name, steps, hsegments, -⟩ := Path.exists_of_literal h.literal h.named
  exact ⟨name, steps, hsegments⟩

namespace Condition

open ConditionTree Compile

mutual

/-- **A condition without fixed text that resolves is proper.** -/
theorem resolve_isProper (hI : Context.Stable I) : ∀ condition : Condition,
    condition.fixedTexts = [] →
      Spec I (condition.resolve family of) fun _ _ _ => condition.IsProper
  | .fixed .., hfree => by simp [fixedTexts] at hfree
  | .existence path expected, _ => by
    rw [resolve]
    refine ((path.resolve_spec hI).bind fun _ _ => Spec.pure _).imp ?_
    rintro ctx _ ctx' - - - ⟨path, _, ⟨rfl, hpath⟩, -⟩
    exact .existence hpath.isNamed expected
  | .hasType path tag, _ => by
    rw [resolve]
    refine (beside_spec hI (fun _ => bindValue_spec hI) path tag .hasType).imp ?_
    rintro ctx _ ctx' - - - ⟨path, tag, -, rfl, rfl, h⟩
    exact .hasType (h.paths path (by simp)).isNamed tag.value
  | .compare path comparison operand, _ => by
    rw [resolve]
    refine (beside_spec hI (ResolvedPath.bindOperand_spec hI) path operand
      fun path operand => .compare path comparison operand).imp ?_
    rintro ctx _ ctx' - - - ⟨path, operand, -, rfl, rfl, h⟩
    exact .compare (h.paths path (by simp)).isNamed comparison operand.value
  | .compareField path comparison other, _ => by
    rw [resolve]
    refine ((path.resolve_spec hI).bind fun _ _ =>
      (other.resolve_spec hI).bind fun _ _ => Spec.pure _).imp ?_
    rintro ctx _ ctx' - - - ⟨path, mid, ⟨rfl, hpath⟩, -, -, -, other, _, ⟨rfl, hother⟩, -⟩
    exact .compareField hpath.isNamed comparison hother.isNamed
  | .between path low high, _ => by
    rw [resolve]
    refine ((path.resolve_spec hI).bind fun resolved _ =>
      (resolved.bindOperand_spec hI low).bind fun _ _ =>
        (resolved.bindOperand_spec hI high).bind fun _ _ => Spec.pure _).imp ?_
    rintro ctx _ ctx' - - - ⟨path, mid, ⟨rfl, hpath⟩, -⟩
    exact .between hpath.isNamed low high
  | .beginsWith path start, _ => by
    rw [resolve]
    refine (beside_spec hI (ResolvedPath.bindOperand_spec hI) path start .beginsWith).imp ?_
    rintro ctx _ ctx' - - - ⟨path, start, -, rfl, rfl, h⟩
    exact .beginsWith (h.paths path (by simp)).isNamed start.value
  | .contains path operand, _ => by
    rw [resolve]
    refine (beside_spec hI (fun _ => bindValue_spec hI) path operand .contains).imp ?_
    rintro ctx _ ctx' - - - ⟨path, operand, -, rfl, rfl, h⟩
    exact .contains (h.paths path (by simp)).isNamed operand.value
  | .oneOf path candidates, _ => by
    rw [resolve]
    refine Spec.ite (fun _ => Spec.throw_bind _ _) fun _ => ?_
    refine ((path.resolve_spec hI).bind fun resolved _ =>
      (mapM_bindOperand_spec hI resolved candidates).bind fun _ _ => Spec.pure _).imp ?_
    rintro ctx _ ctx' - - - ⟨path, mid, ⟨rfl, hpath⟩, -⟩
    exact .oneOf hpath.isNamed candidates
  | .group connective operands, hfree => by
    rw [resolve]
    -- An empty group is refused before anything is bound.
    refine Spec.ite (fun _ => Spec.throw_bind _ _) fun hne => ?_
    refine ((resolveAll_isProper hI operands hfree).bind fun _ _ => Spec.pure _).imp ?_
    rintro ctx _ ctx' - - - ⟨-, -, hoperands, -⟩
    exact .group connective (by simpa using hne) hoperands
  | .not operand, hfree => by
    rw [resolve]
    refine ((resolve_isProper hI operand hfree).bind fun _ _ => Spec.pure _).imp ?_
    rintro ctx _ ctx' - - - ⟨-, -, hoperand, -⟩
    exact .not hoperand

theorem resolveAll_isProper (hI : Context.Stable I) : ∀ conditions : List Condition,
    fixedTextsOfAll conditions = [] → Spec I (resolveAll family of conditions) fun _ _ _ =>
      ∀ condition ∈ conditions, condition.IsProper
  | [], _ => by
    rw [resolveAll]
    exact (Spec.pure []).imp fun _ _ _ _ => by simp
  | condition :: rest, hfree => by
    obtain ⟨hfirst, hrest⟩ := List.append_eq_nil_iff.mp hfree
    rw [resolveAll]
    refine ((resolve_isProper hI condition hfirst).bind fun _ _ =>
      (resolveAll_isProper hI rest hrest).bind fun _ _ => Spec.pure _).imp ?_
    rintro ctx _ ctx' - - - ⟨-, -, hfirst, -, -, -, -, -, hrest, -⟩
    exact List.forall_mem_cons.mpr ⟨hfirst, hrest⟩

end

/-- A compiled condition without fixed text is proper and reads as what was written. -/
theorem compile_reads {ctx ctx' : Context} (hctx : ctx.Reached) {condition : Condition}
    (hfree : condition.FixedFree) {fragment : Fragment}
    (h : (condition.compile family of).runOn ctx = (.ok fragment, ctx')) :
    condition.IsProper ∧ fragment.read = some condition.written := by
  rw [compile, runOn_bind_eq_ok_iff] at h
  obtain ⟨resolved, _, hrun, hpure⟩ := h
  cases hpure
  have hspec : Compile.Spec Context.Sound (condition.resolve family of) _ :=
    condition.resolve_spec Context.stable_sound (hfree.admits _)
  have hkeeps := hspec.keeps hctx.sound
  obtain ⟨rfl, hresolved⟩ := hspec.result hctx.sound hrun
  rw [hrun] at hkeeps
  have hfixed : resolved.fixedTexts = [] := by
    rwa [FixedFree, ResolvedCondition.source, fixedTexts_map] at hfree
  have hleaves := hresolved.onLeaves_conveys hkeeps.linked hkeeps.formed
  refine ⟨(resolve_isProper Context.stable_sound _ hfree).result hctx.sound hrun, ?_⟩
  exact ((compositional_conveys _).condition resolved (hfixed ▸ hleaves)).read_eq hkeeps.formed

end Condition

/-! ## Two readings of one text -/

section Readings

variable {N : String → String → Prop} {V : AttributeValue → AttributeValue → Prop}
  {names names' : Dict String} {values values' : Dict AttributeValue}

/-- What one lexeme reads as in two pairs of dictionaries. -/
theorem Lexeme.alike_of_read
    (hnames : ∀ {placeholder field field'}, names.get? placeholder = some field →
      names'.get? placeholder = some field' → N field field')
    (hvalues : ∀ {placeholder value value'}, values.get? placeholder = some value →
      values'.get? placeholder = some value' → V value value')
    {lexeme : Lexeme} {piece piece' : Piece} (h : lexeme.read names values = some piece)
    (h' : lexeme.read names' values' = some piece') : piece.Alike N V piece' := by
  cases lexeme with
  | char c =>
    cases h
    cases h'
    exact .char c
  | reference placeholder =>
    rw [Lexeme.read] at h h'
    -- The sigil sends both readers to the names or both to the values.
    by_cases hsigil : placeholder.toList.head? = some '#'
    · rw [if_pos hsigil] at h h'
      obtain ⟨field, hfield, rfl⟩ := Option.map_eq_some_iff.mp h
      obtain ⟨field', hfield', rfl⟩ := Option.map_eq_some_iff.mp h'
      exact .name (hnames hfield hfield')
    · rw [if_neg hsigil] at h h'
      obtain ⟨value, hvalue, rfl⟩ := Option.map_eq_some_iff.mp h
      obtain ⟨value', hvalue', rfl⟩ := Option.map_eq_some_iff.mp h'
      exact .value (hvalues hvalue hvalue')

/-- **Two readings of one text are alike**, as far as the dictionaries are. -/
theorem forall₂_alike_of_readText
    (hnames : ∀ {placeholder field field'}, names.get? placeholder = some field →
      names'.get? placeholder = some field' → N field field')
    (hvalues : ∀ {placeholder value value'}, values.get? placeholder = some value →
      values'.get? placeholder = some value' → V value value')
    {text : String} {v w : List Piece} (h : readText names values text = some v)
    (h' : readText names' values' text = some w) : List.Forall₂ (Piece.Alike N V) v w := by
  rw [readText] at h h'
  generalize lex text.toList = lexemes at h h'
  induction lexemes generalizing v w with
  | nil =>
    cases h
    cases h'
    exact .nil
  | cons lexeme rest ih =>
    rw [List.mapM_cons] at h h'
    obtain ⟨piece, hpiece, h⟩ := Option.bind_eq_some_iff.mp h
    obtain ⟨pieces, hpieces, h⟩ := Option.bind_eq_some_iff.mp h
    obtain ⟨piece', hpiece', h'⟩ := Option.bind_eq_some_iff.mp h'
    obtain ⟨pieces', hpieces', h'⟩ := Option.bind_eq_some_iff.mp h'
    cases h
    cases h'
    exact .cons (Lexeme.alike_of_read hnames hvalues hpiece hpiece') (ih hpieces hpieces')

end Readings

/-! ## Recovering a condition -/

/-- Paths that are alike with the same names are one place. -/
theorem Path.alike_eq_iff {path path' : Path} :
    path.Alike Eq path' ↔ path.segments = path'.segments := by
  have hsegment : Segment.Alike Eq = Eq := by
    funext segment segment'
    refine propext ⟨fun h => ?_, fun h => ?_⟩
    · cases h with
      | field hname => rw [hname]
      | index ordinal => rfl
    · subst h
      cases segment with
      | field name => exact .field rfl
      | index ordinal => exact .index ordinal
  rw [Path.Alike, hsegment, List.forall₂_eq_eq_eq]

/-- **Conditions can be recovered from what they compile to.**  Two conditions without fixed text
that compile to one text, each in a reached context and for a schema of its own, are the same tree
of the same operators, up to the names in the paths and the literals.  If a placeholder stands for
the same name in both, the paths have the same segments, and if it stands for related values, the
literals are related; the relation may be equality, or equality up to the order of map entries.
What is not recovered are aliases in paths and the connective of a group of one operand. -/
theorem Condition.compile_unambiguous {n' : Nat} {family' : Family n'} {of' : Fin n'}
    {ctx ctx' after after' : Context} (hctx : ctx.Reached) (hctx' : ctx'.Reached)
    (condition condition' : Condition) (hfree : condition.FixedFree) (hfree' : condition'.FixedFree)
    (fragment fragment' : Fragment)
    (h : (condition.compile family of).runOn ctx = (.ok fragment, after))
    (h' : (condition'.compile family' of').runOn ctx' = (.ok fragment', after'))
    (htext : fragment.text = fragment'.text) :
    condition.Alike (fun _ _ => True) (fun _ _ => True) condition' ∧
      ∀ same : AttributeValue → AttributeValue → Prop,
        (∀ placeholder, fragment.names.get? placeholder = fragment'.names.get? placeholder) →
        (∀ placeholder, Option.Rel same (fragment.values.get? placeholder)
          (fragment'.values.get? placeholder)) →
        condition.Alike Eq same condition' := by
  obtain ⟨hproper, hreads⟩ := compile_reads hctx hfree h
  obtain ⟨hproper', hreads'⟩ := compile_reads hctx' hfree' h'
  rw [Fragment.read] at hreads hreads'
  rw [← htext] at hreads'
  -- Alike pieces tell alike conditions; nothing follows a whole condition.
  have htold : ∀ {N : String → String → Prop} {V : AttributeValue → AttributeValue → Prop},
      List.Forall₂ (Piece.Alike N V) condition.written condition'.written →
        condition.Alike N V condition' := by
    intro N V halike
    exact (hproper.told hproper' (.inl rfl) (.inl rfl) (by simpa using halike)).1
  refine ⟨htold ?_, fun same hnames hvalues =>
    htold (forall₂_alike_of_readText ?_ ?_ hreads hreads')⟩
  · exact forall₂_alike_of_readText (fun _ _ => trivial) (fun _ _ => trivial) hreads hreads'
  · intro placeholder field field' hfield hfield'
    exact Option.some.inj ((hfield.symm.trans (hnames placeholder)).trans hfield')
  · intro placeholder value value' hvalue hvalue'
    have hrel := hvalues placeholder
    rw [hvalue, hvalue'] at hrel
    cases hrel with
    | some h => exact h

/-- Whether two fragments have the same text and the same entries, in any order inside maps. -/
def Fragment.agrees (a b : Fragment) : Bool :=
  a.text = b.text && a.names = b.names && a.values.keys = b.values.keys &&
    a.values.keys.all fun placeholder => (a.values.get? placeholder).any fun value =>
      (b.values.get? placeholder).any value.same

theorem Fragment.rel_of_agrees {a b : Fragment} (h : a.agrees b = true) :
    a.text = b.text ∧ a.names = b.names ∧ ∀ placeholder,
      Option.Rel (fun value value' => value.same value' = true) (a.values.get? placeholder)
        (b.values.get? placeholder) := by
  simp only [agrees, Bool.and_eq_true, decide_eq_true_eq, List.all_eq_true] at h
  obtain ⟨⟨⟨htext, hnames⟩, hkeys⟩, hall⟩ := h
  refine ⟨htext, hnames, fun placeholder => ?_⟩
  by_cases hp : placeholder ∈ a.values.keys
  · obtain ⟨value, hvalue, hany⟩ := (Option.any_eq_true ..).mp (hall placeholder hp)
    obtain ⟨value', hvalue', hsame⟩ := (Option.any_eq_true ..).mp hany
    rw [hvalue, hvalue']
    exact .some hsame
  · rw [(a.values.get?_eq_none_iff _).mpr hp, (b.values.get?_eq_none_iff _).mpr (hkeys ▸ hp)]
    exact .none

/-- A range inside a conjunction, and a negation of a group of one operand. -/
theorem Condition.compile_unambiguous_nested :
    let condition : Condition := .group .and [
      .between (.ofName "name") (.string "a") (.string "b"),
      .not (.group .or [.compareField ((Path.ofName "mentor").field "id") .eq (.ofName "id")])]
    let condition' : Condition := .group .and [
      .between (.aliasOf (.ofName "name")) (.string "a") (.string "b"),
      .not (.group .and [.compareField ((Path.ofName "mentor").field "id") .eq (.ofName "id")])]
    ∃ fragment fragment' after after',
      (condition.compile persons 0).runOn (.fresh "AB") = (.ok fragment, after) ∧
      (condition'.compile persons 0).runOn (.fresh "AB") = (.ok fragment', after') ∧
      fragment.text = "( #A between :B and :AA ) and ( NOT (( #AB.#BA = #BA )) )" ∧
      condition.Alike Eq (fun value value' => value.same value' = true) condition' := by
  intro condition condition'
  have htext : ((condition.compile persons 0).runOn (.fresh "AB")).1.toOption.map
      Fragment.text = some "( #A between :B and :AA ) and ( NOT (( #AB.#BA = #BA )) )" := by
    decide +kernel
  have hagrees : ((condition'.compile persons 0).runOn (.fresh "AB")).1.toOption.map
      (fun fragment' => (((condition.compile persons 0).runOn (.fresh "AB")).1.toOption.map
        fun fragment => fragment.agrees fragment')) = some (some true) := by
    decide +kernel
  obtain ⟨fragment, after, hrun, htext⟩ := Compile.exists_of_toOption htext
  obtain ⟨fragment', after', hrun', hagrees⟩ := Compile.exists_of_toOption hagrees
  rw [hrun] at hagrees
  obtain ⟨hsame, hnames, hvalues⟩ := Fragment.rel_of_agrees (Option.some.inj hagrees)
  have hrecovered := (Condition.compile_unambiguous (.fresh "AB") (.fresh "AB") condition condition'
    (by decide) (by decide) fragment fragment' hrun hrun' hsame).2
  exact ⟨fragment, fragment', after, after', hrun, hrun', htext,
    hrecovered _ (fun placeholder => by rw [hnames]) hvalues⟩

end DocExpr
