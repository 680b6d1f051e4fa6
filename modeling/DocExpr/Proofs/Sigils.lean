import DocExpr.Proofs.Origins

/-!
# Names among the names, values among the values

A store looks a reference behind `#` up among the names and one behind `:` among the values.  The
check puts all keys into one pool, so a value that is declared among the names passes it.  What it
lacks is a look at the sigils of the keys, and no more than that: placeholders are declared where a
store looks for them if and only if the check passes and each dictionary is keyed by its own sigil.

The compiler keys its dictionaries in this way.  So whether a request is declared by sigil is
decided by the texts of the caller, which may come with any keys.

## Main definitions

* `KeyedBySigil`: the keys of names start with `#`, those of values with `:`
* `DeclaredBySigil`: the rule of a store

## Main results

* `declaredBySigil_iff`: what the check lacks
* `Table.Call.keyedBySigil_iff`: a request is keyed by sigil if the texts of the caller are
* `Table.declared_by_sigil`: when a request follows the rule of a store
-/

namespace DocExpr

variable {n : Nat}

/-! ## The rule of a store -/

/-- Some of the expressions mention a placeholder. -/
def Mentioned (expressions : List String) (placeholder : String) : Prop :=
  ∃ expression ∈ expressions, placeholder ∈ references expression.toList

/-- The names start with the sigil of names, and the values with the sigil of values. -/
structure KeyedBySigil (names : Dict String) (values : Dict AttributeValue) : Prop where
  names : ∀ placeholder ∈ names.keys, placeholder.toList.head? = some '#'
  values : ∀ placeholder ∈ values.keys, placeholder.toList.head? = some ':'

/-- A name is declared among the names and a value among the values, and nothing is declared there
but the names and the values that are mentioned. -/
structure DeclaredBySigil (expressions : List String) (names : Dict String)
    (values : Dict AttributeValue) : Prop where
  name_declared {placeholder : String} : Mentioned expressions placeholder →
    placeholder.toList.head? = some '#' → placeholder ∈ names.keys
  value_declared {placeholder : String} : Mentioned expressions placeholder →
    placeholder.toList.head? = some ':' → placeholder ∈ values.keys
  name_mentioned {placeholder : String} : placeholder ∈ names.keys →
    placeholder.toList.head? = some '#' ∧ Mentioned expressions placeholder
  value_mentioned {placeholder : String} : placeholder ∈ values.keys →
    placeholder.toList.head? = some ':' ∧ Mentioned expressions placeholder

/-- What is mentioned starts with a sigil. -/
theorem head?_of_mem_references {placeholder : String} {text : List Char}
    (h : placeholder ∈ references text) :
    placeholder.toList.head? = some '#' ∨ placeholder.toList.head? = some ':' := by
  induction text with
  | nil => cases h
  | cons c rest ih =>
    rw [references] at h
    split at h
    · next hc =>
      rcases List.mem_cons.mp h with rfl | h
      · simp only [isSigil, Bool.and_eq_true, Bool.or_eq_true, decide_eq_true_eq] at hc
        rw [String.toList_ofList, List.head?_cons]
        exact hc.1.imp (congrArg some) (congrArg some)
      · exact ih h
    · exact ih h

/-- **The check lacks no more than a look at the sigils of the keys.** -/
theorem declaredBySigil_iff (expressions : List String) (names : Dict String)
    (values : Dict AttributeValue) : DeclaredBySigil expressions names values ↔
      checkPlaceholders expressions names values = .ok () ∧ KeyedBySigil names values := by
  rw [checkPlaceholders_eq_ok_iff]
  constructor
  · intro h
    refine ⟨fun placeholder => ⟨fun hmention => ?_, fun hdeclared => ?_⟩,
      fun _ hp => (h.name_mentioned hp).1, fun _ hp => (h.value_mentioned hp).1⟩
    · obtain ⟨expression, -, href⟩ := id hmention
      rcases head?_of_mem_references href with hname | hvalue
      · exact .inl (h.name_declared hmention hname)
      · exact .inr (h.value_declared hmention hvalue)
    · rcases hdeclared with hp | hp
      · exact (h.name_mentioned hp).2
      · exact (h.value_mentioned hp).2
  · rintro ⟨hcheck, hkeyed⟩
    -- In the pool of all keys the sigil tells the dictionary.
    refine ⟨fun {placeholder} hmention hhead => ?_, fun {placeholder} hmention hhead => ?_,
      fun {placeholder} hp => ⟨hkeyed.names _ hp, (hcheck placeholder).mpr (.inl hp)⟩,
      fun {placeholder} hp => ⟨hkeyed.values _ hp, (hcheck placeholder).mpr (.inr hp)⟩⟩
    · refine ((hcheck placeholder).mp hmention).resolve_right fun hp => ?_
      rw [hkeyed.values _ hp] at hhead
      cases hhead
    · refine ((hcheck placeholder).mp hmention).resolve_left fun hp => ?_
      rw [hkeyed.names _ hp] at hhead
      cases hhead

/-! ## Requests -/

namespace Table

/-- **The compiler keys by sigil**, so a request does if the texts of the caller do. -/
theorem Call.keyedBySigil_iff {table : Table n} {call : Call} {request : Request}
    (h : call.run table = .ok request) :
    KeyedBySigil request.meanings.names request.meanings.values ↔
      ∀ text ∈ call.fixedTexts, KeyedBySigil text.names text.values := by
  constructor
  · intro hkeyed text htext
    obtain ⟨prepared, ctx, htraced⟩ := traced_of_run h
    have hleaf := htraced.mem_leaves htext
    exact ⟨fun _ hp => hkeyed.names _ (htraced.gathers.names_subset text hleaf _ hp),
      fun _ hp => hkeyed.values _ (htraced.gathers.values_subset text hleaf _ hp)⟩
  · intro hkeyed
    refine ⟨fun placeholder hp => ?_, fun placeholder hp => ?_⟩
    · rcases name_origin h hp with ⟨text, htext, hp⟩ | ⟨field, -, hname, -⟩
      · exact (hkeyed text htext).names _ hp
      · exact hname.head?
    · rcases value_origin h hp with ⟨text, htext, hp⟩ | ⟨value, -, hvalue, -⟩
      · exact (hkeyed text htext).values _ hp
      · exact hvalue.head?

/-- **When placeholders are declared where a store looks for them.**  The check alone does not say
so: the keys have to start with the sigils of their dictionaries as well, and those of a request do
if and only if those of all texts of the caller do. -/
theorem declared_by_sigil (expressions : List String) (names : Dict String)
    (values : Dict AttributeValue) :
    (DeclaredBySigil expressions names values ↔
      checkPlaceholders expressions names values = .ok () ∧ KeyedBySigil names values) ∧
    ∀ {n : Nat} (table : Table n) (call : Call) (request : Request),
      table.config.validate = true → call.run table = .ok request →
      (DeclaredBySigil request.expressions request.meanings.names request.meanings.values ↔
        ∀ text ∈ call.fixedTexts, KeyedBySigil text.names text.values) := by
  refine ⟨declaredBySigil_iff expressions names values,
    fun {n} table call request hvalidate hrun => ?_⟩
  rw [declaredBySigil_iff, Call.keyedBySigil_iff hrun]
  exact and_iff_right ((Call.expressed_of_run hrun).checked hvalidate)

/-- A value among the names passes the check, and a request with it goes out; a name among the names
is where a store looks for it. -/
theorem declared_by_sigil_misplaced :
    let table : Table 1 := { name := "people", family := persons, of := 0 }
    let text (placeholder : String) : String := "attribute_exists(" ++ placeholder ++ ")"
    let names (placeholder : String) : Dict String := .singleton placeholder "name"
    let call (placeholder : String) : Call := .scan {
      filter := some (.fixed (text placeholder) (names placeholder) ∅) }
    (checkPlaceholders [text ":a"] (names ":a") ∅ = .ok () ∧
      ¬ DeclaredBySigil [text ":a"] (names ":a") ∅) ∧
    (∃ request, (call ":a").run table = .ok request ∧
      ¬ DeclaredBySigil request.expressions request.meanings.names request.meanings.values) ∧
    ∃ request, (call "#a").run table = .ok request ∧
      DeclaredBySigil request.expressions request.meanings.names request.meanings.values := by
  intro table text names call
  obtain ⟨hcheck, hrequest⟩ := declared_by_sigil [text ":a"] (names ":a") ∅
  have hpasses : checkPlaceholders [text ":a"] (names ":a") ∅ = .ok () := by decide +kernel
  have hmisplaced : ¬ KeyedBySigil (names ":a") ∅ := fun hkeyed =>
    absurd (hkeyed.names ":a" (List.mem_singleton_self _)) (by decide)
  have hvalue : ((call ":a").run table).toOption.map Request.expressions = some [text ":a"] := by
    decide +kernel
  have hname : ((call "#a").run table).toOption.map Request.expressions = some [text "#a"] := by
    decide +kernel
  obtain ⟨request, hrun, -⟩ := Except.exists_of_toOption hvalue
  obtain ⟨request', hrun', -⟩ := Except.exists_of_toOption hname
  refine ⟨⟨hpasses, fun hdeclared => hmisplaced (hcheck.mp hdeclared).2⟩,
    ⟨request, hrun, fun hdeclared => ?_⟩, request', hrun', ?_⟩
  · exact hmisplaced ((hrequest table _ request rfl hrun).mp hdeclared _
      (List.mem_singleton_self _))
  · refine (hrequest table _ request' rfl hrun').mpr ?_
    exact List.forall_mem_singleton.mpr ⟨List.forall_mem_singleton.mpr rfl, nofun⟩

end Table

end DocExpr
