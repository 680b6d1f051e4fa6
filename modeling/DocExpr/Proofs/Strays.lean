import DocExpr.Proofs.Origins

/-!
# Strays in the texts of a caller

A text of the caller may mention a placeholder that no text of the caller declares.  The compiler
does not look for such a stray when it mints, and a request is checked as it is sent, with one
dictionary of names and one of values for all its expressions.  So a stray goes through if the
compiler happened to give it away, and then it means what the compiler gave it to.  That is the only
way through: any other stray is refused, wherever the text stands.

## Main results

* `Table.Call.declared_of_mentioned`: with the check, what a text mentions the request declares
* `Table.stray_refused_or_given`: a stray is refused or was given to a field or a literal
* `Table.stray_not_refused`: one that was given away
-/

namespace DocExpr

variable {n : Nat}

namespace Table

/-- With the check, what a text of the caller mentions is declared, by whichever part. -/
theorem Call.declared_of_mentioned {table : Table n} {call : Call} {request : Request}
    (hvalidate : table.config.validate = true) (h : call.run table = .ok request)
    {text : Fragment} (htext : text ∈ call.fixedTexts) {placeholder : String}
    (hmention : placeholder ∈ references text.text.toList) :
    placeholder ∈ request.meanings.names.keys ∨ placeholder ∈ request.meanings.values.keys := by
  obtain ⟨hmentioned, hchecked⟩ := expressed_of_run h
  obtain ⟨condition, hcondition, htext⟩ := List.mem_flatMap.mp htext
  obtain ⟨expression, hexpression, hsubset⟩ := hmentioned condition hcondition
  rw [← (checkPlaceholders_eq_ok_iff ..).mp (hchecked hvalidate)]
  exact ⟨expression, hexpression, hsubset text htext hmention⟩

/-- **A stray is refused unless the compiler gave it away.**  If a text of the caller mentions a
placeholder that no text of the caller declares, the operation fails, or the request prints a field
or a literal that has the placeholder, and the stray means that. -/
theorem stray_refused_or_given (table : Table n) (hvalidate : table.config.validate = true)
    (call : Call) {text : Fragment} (htext : text ∈ call.fixedTexts) {placeholder : String}
    (hmention : placeholder ∈ references text.text.toList)
    (hstray : ∀ other ∈ call.fixedTexts,
      placeholder ∉ other.names.keys ∧ placeholder ∉ other.values.keys) :
    (∃ e, call.run table = .error e) ∨
      ∃ request, call.run table = .ok request ∧
        ((∃ field, request.meanings.names.get? placeholder = some field ∧
            call.GivesName table placeholder field) ∨
          ∃ value, request.meanings.values.get? placeholder = some value ∧
            call.GivesValue table placeholder value) := by
  cases hrun : call.run table with
  | error e => exact .inl ⟨e, rfl⟩
  | ok request =>
    refine .inr ⟨request, rfl, ?_⟩
    -- The check finds the stray among the keys, which no text of the caller put there.
    rcases Call.declared_of_mentioned hvalidate hrun htext hmention with hname | hvalue
    · refine .inl ((Call.name_origin hrun hname).resolve_left ?_)
      rintro ⟨other, hother, hp⟩
      exact (hstray other hother).1 hp
    · refine .inr ((Call.value_origin hrun hvalue).resolve_left ?_)
      rintro ⟨other, hother, hp⟩
      exact (hstray other hother).2 hp

/-- A stray behind a test of a field: the one that the field was given, and another one. -/
theorem stray_refused_or_given_beside :
    let table : Table 1 := { name := "people", family := persons, of := 0 }
    let call (text : String) : Call := .scan {
      filter := some (.group .and [.existence (.ofName "name") true, .fixed text ∅ ∅]) }
    (∃ e, (call "attribute_exists(#Z)").run table = .error e) ∧
      ∃ request, (call "attribute_exists(#A)").run table = .ok request ∧
        ∃ field, request.meanings.names.get? "#A" = some field ∧
          (call "attribute_exists(#A)").GivesName table "#A" field := by
  intro table call
  have hstray : ∀ text placeholder, ∀ other ∈ (call text).fixedTexts,
      placeholder ∉ other.names.keys ∧ placeholder ∉ other.values.keys := fun text placeholder =>
    List.forall_mem_singleton.mpr ⟨nofun, nofun⟩
  have hfail : ((call "attribute_exists(#Z)").run table).toOption.isSome = false := by
    decide +kernel
  have hrun : ((call "attribute_exists(#A)").run table).toOption.isSome = true := by
    decide +kernel
  refine ⟨?_, ?_⟩
  · rcases stray_refused_or_given table rfl (call "attribute_exists(#Z)")
      (List.mem_singleton_self _) (by decide) (hstray _ "#Z") with herror | ⟨request, hok, -⟩
    · exact herror
    · rw [hok] at hfail
      cases hfail
  · rcases stray_refused_or_given table rfl (call "attribute_exists(#A)")
      (List.mem_singleton_self _) (by decide) (hstray _ "#A") with
      ⟨e, herror⟩ | ⟨request, hok, hgiven⟩
    · rw [herror] at hrun
      cases hrun
    · refine ⟨request, hok, hgiven.resolve_right ?_⟩
      rintro ⟨value, -, hvalue, -⟩
      exact absurd hvalue.head? (by decide)

/-- A stray may be accepted: here it is the placeholder that the compiler gave to a field. -/
theorem stray_not_refused :
    let table : Table 1 := { name := "people", family := persons, of := 0 }
    let text : Fragment := .ofText "attribute_exists(#A)"
    let call : Call := .scan {
      filter := some (.group .and [.existence (.ofName "name") true, .fixed text.text ∅ ∅]) }
    table.config.validate = true ∧ text ∈ call.fixedTexts ∧
      "#A" ∈ references text.text.toList ∧
      (∀ other ∈ call.fixedTexts, "#A" ∉ other.names.keys ∧ "#A" ∉ other.values.keys) ∧
      ∃ request, call.run table = .ok request ∧
        request.meanings.names.get? "#A" = some "name" := by
  intro table text call
  have hrun : (call.run table).toOption.map (fun request => request.meanings.names.get? "#A") =
      some (some "name") := by decide +kernel
  refine ⟨rfl, List.mem_singleton_self _, by decide, ?_, Except.exists_of_toOption hrun⟩
  exact List.forall_mem_singleton.mpr ⟨nofun, nofun⟩

end Table

end DocExpr
