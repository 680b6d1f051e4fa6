import DocExpr.Proofs.NumberRange
import DocExpr.Proofs.Origins

/-!
# Numbers that leave the compiler

A store takes finite numbers only, and a numeral of a caller may stand for none.  Numerals get into
a request on four ways: through the fields of a record, through its nested records, through literals
and through the values of a caller's text.  Each way has a check of its own.  What the checks come
to is said here of the whole request: every numeral in it, at whatever depth, is that of a finite
number.

For literals and values it is an invariant of the context that carries this, for both are bound
before they get into a fragment.  A value of a caller's text is different: it need not be the value
that was bound, only an equal one, and the fragment has the value that the caller wrote.

## Main definitions

* `AttributeValue.numerals`: the numerals inside a value
* `Context.HoldsStorable`: the values of a context can be stored
* `Request.attributeValues`: the values that a request sends

## Main results

* `AttributeValue.invalidNumber?_eq`: the check of a value looks at every numeral inside it
* `Table.Call.storable_values`, `Table.Call.storable_stored`: the values of expressions, and those
  of items and keys
* `Table.sends_finite_numbers`: a request sends finite numbers only
-/

namespace DocExpr

/-! ## Numerals inside values -/

namespace AttributeValue

mutual

/-- The numerals inside a value, at whatever depth, in the order in which they are written. -/
def numerals : AttributeValue → List String
  | number numeral => [numeral]
  | numberSet members => members
  | list items => numeralsIn items
  | map entries => numeralsAmong entries
  | _ => []

/-- The numerals inside the items of a list. -/
def numeralsIn : List AttributeValue → List String
  | [] => []
  | item :: rest => numerals item ++ numeralsIn rest

/-- The numerals inside the entries of a map. -/
def numeralsAmong : List (String × AttributeValue) → List String
  | [] => []
  | (_, value) :: rest => numerals value ++ numeralsAmong rest

end

/-- **The check of a value looks at every numeral inside it** and finds the first that is that of no
finite number. -/
theorem invalidNumber?_eq (value : AttributeValue) :
    value.invalidNumber? = value.numerals.find? fun numeral => !isFiniteNumeral numeral := by
  induction value with
  | number numeral =>
    rw [invalidNumber?, numerals, List.find?_singleton]
    by_cases hfinite : isFiniteNumeral numeral = true
    · rw [if_pos hfinite, hfinite]
      rfl
    · rw [if_neg hfinite, Bool.eq_false_iff.mpr hfinite]
      rfl
  | list items ih =>
    rw [invalidNumber?, numerals]
    induction items with
    | nil => rfl
    | cons item rest ihrest =>
      obtain ⟨hitem, hrest⟩ := List.forall_mem_cons.mp ih
      rw [invalidNumberIn?, numeralsIn, List.find?_append, hitem, ihrest hrest]
  | map entries ih =>
    rw [invalidNumber?, numerals]
    induction entries with
    | nil => rfl
    | cons entry rest ihrest =>
      obtain ⟨hentry, hrest⟩ := List.forall_mem_cons.mp ih
      rw [invalidNumberAmong?, numeralsAmong, List.find?_append, hentry, ihrest hrest]
  | numberSet | string | binary | stringSet | binarySet | bool | null => rfl

/-- A value can be stored exactly when each numeral inside it is that of a finite number. -/
theorem storable_iff (value : AttributeValue) :
    value.Storable ↔ ∀ numeral ∈ value.numerals, isFiniteNumeral numeral = true := by
  rw [Storable, invalidNumber?_eq, List.find?_eq_none]
  simp only [Bool.not_eq_true', Bool.not_eq_false]

end AttributeValue

/-! ## The values of expressions -/

namespace Context

/-- Every value of a context can be stored. -/
structure HoldsStorable (ctx : Context) : Prop where
  linked : ctx.Linked
  storable {placeholder : String} {value : AttributeValue} :
    ctx.values.get? placeholder = some value → value.Storable

theorem holdsStorable_fresh (alphabet : String) : (fresh alphabet).HoldsStorable := ⟨nofun, nofun⟩

variable {ctx ctx' : Context}

/-- One more value that can be stored. -/
theorem HoldsStorable.insert (h : ctx.HoldsStorable) (hlinked : ctx'.Linked) {placeholder : String}
    {value : AttributeValue} (hvalue : value.Storable)
    (hvalues : ctx'.values = ctx.values.insert placeholder value) : ctx'.HoldsStorable := by
  refine ⟨hlinked, fun {other v} hother => ?_⟩
  rw [hvalues, Dict.get?_insert] at hother
  split at hother
  · cases hother
    exact hvalue
  · exact h.storable hother

theorem storable_of_bindValue {value : AttributeValue} {bound : BoundValue}
    (h : ctx.bindValue value = .ok (bound, ctx')) : value.Storable := by
  rw [bindValue] at h
  split at h
  · cases h
  · next hstorable => exact hstorable

theorem storable_of_reserveValue {placeholder : String} {value : AttributeValue}
    (h : ctx.reserveValue placeholder value = .ok ctx') : value.Storable := by
  rw [reserveValue] at h
  split at h
  · cases h
  · next hstorable => exact hstorable

/-- Binding keeps the values storable, since it refuses all others. -/
theorem stable_holdsStorable : Stable HoldsStorable where
  linked h := h.linked
  bindName h _ hbind := by
    refine ⟨Linked.bindName h.linked hbind, fun {placeholder value} hvalue => ?_⟩
    rw [(frame_bindName hbind).1] at hvalue
    exact h.storable hvalue
  bindValue h hbind := by
    have hlinked : Linked _ := Linked.bindValue h.linked hbind
    have hstorable := storable_of_bindValue hbind
    obtain ⟨-, -, -, position, rfl⟩ := bindValue_cases hbind
    exact h.insert hlinked hstorable rfl

/-- So does every reservation. -/
theorem admits_holdsStorable (text : Fragment) : Admits HoldsStorable text where
  reserveName h _ hreserve := by
    have hlinked : Linked _ := Linked.reserveName h.linked hreserve
    rcases reserveName_cases hreserve with rfl | ⟨-, rfl⟩
    · exact h
    · exact ⟨hlinked, h.storable⟩
  reserveValue h _ hreserve := by
    have hlinked : Linked _ := Linked.reserveValue h.linked hreserve
    have hstorable := storable_of_reserveValue hreserve
    rcases reserveValue_cases hreserve with rfl | ⟨-, rfl⟩
    · exact h
    · exact h.insert hlinked hstorable rfl

end Context

open Compile (Spec)

/-- The values that a text of the caller declares can be stored. -/
def Fragment.Storable (text : Fragment) : Prop :=
  ∀ entry ∈ text.values.entries, entry.2.Storable

/-- **A text that is reserved declares only values that can be stored.**  Each of them is checked,
whether it is new to the context or not. -/
theorem Fragment.reserve_storable (text : Fragment) :
    Spec (fun ctx => ctx.Linked) text.reserve fun _ _ _ => text.Storable := by
  have htext := Context.admits_linked text
  have hnames : ∀ entry ∈ text.names.entries,
      Spec (fun ctx => ctx.Linked) (Compile.reserveName entry.1 entry.2) fun _ _ _ => True :=
    fun entry hentry => (Spec.reserveName htext (List.mem_map_of_mem hentry) entry.2).imp
      fun _ _ _ _ => trivial
  have hvalues : ∀ entry ∈ text.values.entries,
      Spec (fun ctx => ctx.Linked) (Compile.reserveValue entry.1 entry.2) fun _ _ _ =>
        entry.2.Storable := by
    intro entry hentry
    refine Spec.step fun {ctx a ctx'} h hrun => ?_
    have hreserve := Compile.eq_ok_of_map_unit hrun
    exact ⟨htext.reserveValue h (List.mem_map_of_mem hentry) hreserve,
      Context.le_reserveValue hreserve, Context.storable_of_reserveValue hreserve⟩
  refine ((Spec.forM text.names.entries (fun _ _ => True) (fun _ h => h) hnames).bind fun _ _ =>
    Spec.forM text.values.entries (fun entry _ => entry.2.Storable) (fun _ h => h) hvalues).imp ?_
  rintro ctx _ ctx' - - - ⟨-, mid, -, -, -, -, hstorable⟩
  exact hstorable

namespace Table.Call

variable {n : Nat} {table : Table n} {call : Call} {request : Request}

/-- The texts of a caller that got into a request declare only values that can be stored. -/
theorem storable_fixedTexts {prepared : List PreparedPart} {ctx : Context}
    (h : call.Traced table request prepared ctx) : ∀ text ∈ call.fixedTexts, text.Storable := by
  have hspec : Spec (fun ctx => ctx.Linked)
      (SourcePart.prepareAll table.family table.of (call.parts table)) _ :=
    SourcePart.prepareAll_reserves (A := fun text _ => text.Storable) (fun _ {_ _} _ h => h)
      fun text _ => text.reserve_storable
  have htexts := hspec.result (Context.linked_fresh _) h.prepare
  rwa [fixedTexts_parts] at htexts

/-- **The values of the expressions of a request can be stored.** -/
theorem storable_values (h : call.run table = .ok request) :
    ∀ entry ∈ request.meanings.values.entries, entry.2.Storable := by
  rintro ⟨placeholder, value⟩ hentry
  obtain ⟨prepared, ctx, htraced⟩ := traced_of_run h
  have hspec : Spec Context.HoldsStorable
      (SourcePart.prepareAll table.family table.of (call.parts table)) _ :=
    SourcePart.prepareAll_resolves Context.stable_holdsStorable fun text _ =>
      Context.admits_holdsStorable text
  have hctx := hspec.keeps (Context.holdsStorable_fresh table.config.alphabet)
  rw [htraced.prepare] at hctx
  obtain ⟨leaf, hleaf, hvalue⟩ :=
    htraced.gathers.exists_value ((Dict.get?_eq_some_iff ..).mpr hentry)
  -- A path declares no values, a literal is bound, and a text of the caller was reserved.
  rcases htraced.leaf_cases hleaf with
    ⟨part, -, path, -, hbound, rfl⟩ | ⟨part, -, bound, -, hbound, rfl⟩ | htext
  · rw [hbound.values] at hvalue
    cases hvalue
  · rw [BoundValue.fragment, Dict.get?_singleton] at hvalue
    split at hvalue
    · cases hvalue
      exact hctx.storable hbound
    · cases hvalue
  · exact storable_fixedTexts htraced leaf htext _ ((Dict.get?_eq_some_iff ..).mp hvalue)

end Table.Call

/-! ## Items and keys -/

/-- What is written of a record can be stored, whatever fields are selected. -/
theorem storable_encodeFields {n : Nat} {family : Family n} {of : Fin n} {select : Field n → Bool}
    {record : Record} {entries : Entries AttributeValue}
    (h : encodeFields family of select record = .ok entries) :
    ∀ entry ∈ entries, entry.2.Storable := by
  rw [encodeFields_part] at h
  obtain ⟨rfl, hstorable⟩ := encodeFields_eq_ok_iff.mp h
  exact hstorable

/-- The item that a request stores, or the key that it names. -/
def Request.stored : Request → Item
  | .getItem request => request.key
  | .putItem request => request.item
  | .updateItem request => request.key
  | .deleteItem request => request.key
  | .query _ | .scan _ => ∅

namespace Table

variable {n : Nat} {table : Table n} {record : Record} {item : Item}

/-- What a table writes of a record, be it a key or an item, can be stored. -/
theorem storable_written {select : Field n → Bool}
    (h : (Dict.ofList <$> encodeFields table.family table.of select record).mapError
      ExpressionError.mapping = .ok item) : ∀ entry ∈ item.entries, entry.2.Storable := by
  obtain ⟨entries, hencode, rfl⟩ := Except.map_eq_ok_iff.mp (Except.mapError_eq_ok_iff.mp h)
  exact fun entry hentry => storable_encodeFields hencode entry (Dict.mem_of_mem_ofList hentry)

/-- **The item of a request, or its key, can be stored.** -/
theorem Call.storable_stored {call : Call} {request : Request}
    (h : call.run table = .ok request) : ∀ entry ∈ request.stored.entries, entry.2.Storable := by
  cases call with
  | read record options =>
    obtain ⟨request, hread, rfl⟩ := Except.map_eq_ok_iff.mp h
    simp only [Table.read, Except.bind_eq_ok_iff] at hread
    obtain ⟨projection, -, declared, -, key, hkey, heq⟩ := hread
    cases heq
    exact storable_written hkey
  | put record condition? =>
    obtain ⟨request, hput, rfl⟩ := Except.map_eq_ok_iff.mp h
    simp only [Table.put, Except.bind_eq_ok_iff] at hput
    obtain ⟨fragment?, -, declared, -, item, hitem, heq⟩ := hput
    cases heq
    exact storable_written hitem
  | delete record condition? =>
    obtain ⟨request, hdelete, rfl⟩ := Except.map_eq_ok_iff.mp h
    simp only [Table.delete, Except.bind_eq_ok_iff] at hdelete
    obtain ⟨fragment?, -, declared, -, key, hkey, heq⟩ := hdelete
    cases heq
    exact storable_written hkey
  | update record statements condition? =>
    obtain ⟨request, hupdate, rfl⟩ := Except.map_eq_ok_iff.mp h
    simp only [Table.update, Except.bind_eq_ok_iff] at hupdate
    obtain ⟨compiled, -, declared, -, key, hkey, heq⟩ := hupdate
    cases heq
    exact storable_written hkey
  | save record condition? =>
    obtain ⟨request, hsave, rfl⟩ := Except.map_eq_ok_iff.mp h
    simp only [Table.save, Table.update, Except.bind_eq_ok_iff] at hsave
    obtain ⟨update, -, compiled, -, declared, -, key, hkey, heq⟩ := hsave
    cases heq
    exact storable_written hkey
  | scan options =>
    obtain ⟨request, -, rfl⟩ := Except.map_eq_ok_iff.mp h
    intro entry hentry
    cases hentry
  | query options =>
    obtain ⟨request, -, rfl⟩ := Except.map_eq_ok_iff.mp h
    intro entry hentry
    cases hentry

end Table

/-! ## Requests -/

/-- The attribute values that a request sends, those of its item or key before those of its
expressions. -/
def Request.attributeValues (request : Request) : List AttributeValue :=
  request.stored.values ++ request.meanings.values.values

/-- **A request sends finite numbers only.**  Whatever an operation is given, if it yields a request
then each numeral in the request is that of a finite 64-bit number, in its item, its key and the
values of its expressions alike, and at whatever depth. -/
theorem Table.sends_finite_numbers {n : Nat} (table : Table n) (call : Call) (request : Request)
    (h : call.run table = .ok request) :
    ∀ value ∈ request.attributeValues, ∀ numeral ∈ value.numerals,
      ∃ x, FloatFormat.double.read? numeral = some x ∧ x.isFinite = true := by
  intro value hvalue numeral hnumeral
  rw [← isFiniteNumeral_iff]
  refine value.storable_iff.mp ?_ numeral hnumeral
  rcases List.mem_append.mp hvalue with hstored | hexpression
  · obtain ⟨entry, hentry, rfl⟩ := List.mem_map.mp hstored
    exact call.storable_stored h entry hentry
  · obtain ⟨entry, hentry, rfl⟩ := List.mem_map.mp hexpression
    exact call.storable_values h entry hentry

/-- A weight inside a list of records, and the members of a set and the entry of a map that a text
of the caller declares. -/
theorem Table.sends_finite_numbers_shelf :
    let table : Table 3 := { name := "shelves", family := shelves, of := 0 }
    let limits : AttributeValue := .list [.numberSet ["1e3", "-2"], .map [("least", .number "0")]]
    let call : Call :=
      .put shelf (some (.fixed "contains(:limits, :limits)" ∅ (.singleton ":limits" limits)))
    ∃ request, call.run table = .ok request ∧
      request.attributeValues.flatMap AttributeValue.numerals = ["0.5", "1e3", "-2", "0"] ∧
      ∀ value ∈ request.attributeValues, ∀ numeral ∈ value.numerals,
        ∃ x, FloatFormat.double.read? numeral = some x ∧ x.isFinite = true := by
  intro table limits call
  have hrun : (call.run table).toOption.map (fun request =>
      request.attributeValues.flatMap AttributeValue.numerals) =
        some ["0.5", "1e3", "-2", "0"] := by
    decide +kernel
  obtain ⟨request, hrequest, hnumerals⟩ := Except.exists_of_toOption hrun
  exact ⟨request, hrequest, hnumerals, sends_finite_numbers table call request hrequest⟩

end DocExpr
