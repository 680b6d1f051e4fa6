import DocExpr.Attribute.Json
import DocExpr.Proofs.Base64
import DocExpr.Proofs.Export
import DocExpr.Proofs.JsonText
import DocExpr.Proofs.Reordering

/-!
# The JSON form of values is exact

Writing a value and reading it are inverse to each other.  What is written is read back, as a tree
and as a text.  Conversely a tree that is read as a value has the shape that the tags prescribe, and
the value is written as the same tree, up to what the values do not keep: the order of the members
of a map, and a member that a later one of the same name overrides.

The converse goes by way of the shape.  `isForm_of_ofJson` follows the reader down the tree and
finds the shape; from there on the induction is on the shape, which knows of lists of items and
members where the tree only has cells.

## Main definitions

* `Json.Same`: equality of trees, up to what values do not keep
* `AttributeValue.IsForm`: the shape of a value
* `AttributeValue.ReadsAs`: what is known of a tree once it is read

## Main results

* `AttributeValue.ofJson_toJson`: what is written is read back
* `AttributeValue.isForm_of_ofJson`, `AttributeValue.IsForm.exists_readsAs`: the shape is what is
  accepted
* `AttributeValue.json_codec`: all of it together
-/

namespace DocExpr

/-! ## Trees as values see them -/

namespace Json

/-- Equality of JSON values, for which neither the order of members matters nor a member that a
later one of the same name overrides. -/
inductive Same : Json → Json → Prop
  | null : Same .null .null
  | bool (flag : Bool) : Same (.bool flag) (.bool flag)
  | number (literal : String) : Same (.number literal) (.number literal)
  | string (text : String) : Same (.string text) (.string text)
  | array {as bs : List Json} (h : List.Forall₂ Same as bs) : Same (.ofItems as) (.ofItems bs)
  | object {as bs : List (String × Json)}
      (h : ∀ name, Option.Rel Same ((Dict.ofList as).get? name) ((Dict.ofList bs).get? name)) :
      Same (.ofMembers as) (.ofMembers bs)

end Json

namespace AttributeValue

/-- The shape of a value: an object of one member, which is named by a tag and holds what the tag
calls for. -/
inductive IsForm : Json → Prop
  | string (text : String) : IsForm (tagged .string (.string text))
  | number (numeral : String) : IsForm (tagged .number (.string numeral))
  | binary (bytes : List UInt8) : IsForm (tagged .binary (.string (Base64.encode bytes)))
  | stringSet (members : List String) :
      IsForm (tagged .stringSet (.ofItems (members.map .string)))
  | numberSet (members : List String) :
      IsForm (tagged .numberSet (.ofItems (members.map .string)))
  | binarySet (members : List (List UInt8)) :
      IsForm (tagged .binarySet (.ofItems (members.map (.string ∘ Base64.encode))))
  | bool (flag : Bool) : IsForm (tagged .bool (.bool flag))
  | null (flag : Bool) : IsForm (tagged .null (.bool flag))
  | list {items : List Json} (h : ∀ item ∈ items, IsForm item) :
      IsForm (tagged .list (.ofItems items))
  | map {members : List (String × Json)} (h : ∀ member ∈ members, IsForm member.2) :
      IsForm (tagged .map (.ofMembers members))

/-! ## Reading arrays of strings -/

theorem texts?_eq_ok_iff {items : JsonItems} {texts : List String} :
    items.texts? = .ok texts ↔ items = .ofList (texts.map .string) := by
  constructor
  · intro h
    induction items using JsonItems.texts?.induct generalizing texts with
    | case1 =>
      cases h
      rfl
    | case2 => cases h
    | case3 head tail ih =>
      rw [JsonItems.texts?] at h
      obtain ⟨text, hhead, h⟩ := Except.bind_eq_ok_iff.mp h
      obtain ⟨rest, htail, h⟩ := Except.bind_eq_ok_iff.mp h
      cases h
      cases head with
      | string s =>
        cases hhead
        rw [ih htail]
        rfl
      | _ => cases hhead
  · rintro rfl
    induction texts with
    | nil => rfl
    | cons text rest ih =>
      rw [List.map_cons, JsonItems.ofList, JsonItems.texts?, ih]
      rfl

theorem decodeBytes_eq_ok_iff {s : String} {bytes : List UInt8} :
    decodeBytes s = .ok bytes ↔ Base64.encode bytes = s := by
  rw [← Base64.decode?_eq_some_iff, decodeBytes]
  cases Base64.decode? s <;> simp

theorem mapM_decodeBytes_eq_ok_iff {texts : List String} {members : List (List UInt8)} :
    texts.mapM decodeBytes = .ok members ↔ texts = members.map Base64.encode := by
  induction texts generalizing members with
  | nil => cases members <;> simp [pure, Except.pure]
  | cons text rest ih =>
    rw [List.mapM_cons, Except.bind_eq_ok_iff]
    constructor
    · rintro ⟨bytes, hbytes, h⟩
      obtain ⟨others, hothers, h⟩ := Except.bind_eq_ok_iff.mp h
      cases h
      rw [List.map_cons, ← ih.mp hothers, decodeBytes_eq_ok_iff.mp hbytes]
    · intro h
      cases members with
      | nil => cases h
      | cons bytes others =>
        obtain ⟨htext, hrest⟩ := List.cons.inj h
        refine ⟨bytes, decodeBytes_eq_ok_iff.mpr htext.symm, ?_⟩
        rw [ih.mpr hrest]
        rfl

/-! ## What is accepted has the shape -/

mutual

theorem isForm_of_ofJson {json : Json} {value : AttributeValue} (h : ofJson json = .ok value) :
    IsForm json := by
  cases json with
  | object members =>
    cases members with
    | cons name payload tail =>
      cases name with
      | none => cases h
      | some name =>
        rw [ofJson] at h
        split at h
        · cases h
        · next type htype =>
          obtain ⟨value, hpayload, h⟩ := Except.bind_eq_ok_iff.mp h
          rw [← AttributeType.tag_of_ofTag? htype]
          cases tail with
          | close => exact isForm_of_ofPayload hpayload
          | _ => cases h
    | _ => cases h
  | _ => cases h

theorem isForm_of_ofPayload {payload : Json} {type : AttributeType} {value : AttributeValue}
    (h : ofPayload type payload = .ok value) : IsForm (tagged type payload) := by
  cases payload with
  | string text =>
    cases type with
    | string => exact .string text
    | number => exact .number text
    | binary =>
      obtain ⟨bytes, hbytes, -⟩ := Except.map_eq_ok_iff.mp h
      rw [← decodeBytes_eq_ok_iff.mp hbytes]
      exact .binary bytes
    | _ => cases h
  | bool flag =>
    cases type with
    | bool => exact .bool flag
    | null => exact .null flag
    | _ => cases h
  | array items =>
    cases type with
    | stringSet =>
      obtain ⟨texts, htexts, -⟩ := Except.map_eq_ok_iff.mp h
      rw [texts?_eq_ok_iff.mp htexts]
      exact .stringSet texts
    | numberSet =>
      obtain ⟨texts, htexts, -⟩ := Except.map_eq_ok_iff.mp h
      rw [texts?_eq_ok_iff.mp htexts]
      exact .numberSet texts
    | binarySet =>
      obtain ⟨texts, htexts, h⟩ := Except.bind_eq_ok_iff.mp h
      obtain ⟨members, hmembers, -⟩ := Except.map_eq_ok_iff.mp h
      rw [texts?_eq_ok_iff.mp htexts, mapM_decodeBytes_eq_ok_iff.mp hmembers, List.map_map]
      exact .binarySet members
    | list =>
      obtain ⟨values, hvalues, -⟩ := Except.map_eq_ok_iff.mp h
      obtain ⟨forms, rfl, hforms⟩ := exists_forms_of_itemsOfJson hvalues
      exact .list hforms
    | _ => cases h
  | object members =>
    cases type with
    | map =>
      obtain ⟨entries, hentries, -⟩ := Except.map_eq_ok_iff.mp h
      obtain ⟨forms, rfl, hforms⟩ := exists_forms_of_entriesOfJson hentries
      exact .map hforms
    | _ => cases h
  | _ => cases type <;> cases h

theorem exists_forms_of_itemsOfJson {items : JsonItems} {values : List AttributeValue}
    (h : itemsOfJson items = .ok values) :
    ∃ forms, items = .ofList forms ∧ ∀ form ∈ forms, IsForm form := by
  cases items with
  | close => exact ⟨[], rfl, by simp⟩
  | cut => cases h
  | cons head tail =>
    rw [itemsOfJson] at h
    obtain ⟨value, hhead, h⟩ := Except.bind_eq_ok_iff.mp h
    obtain ⟨others, htail, -⟩ := Except.bind_eq_ok_iff.mp h
    obtain ⟨forms, rfl, hforms⟩ := exists_forms_of_itemsOfJson htail
    exact ⟨head :: forms, rfl, List.forall_mem_cons.mpr ⟨isForm_of_ofJson hhead, hforms⟩⟩

theorem exists_forms_of_entriesOfJson {members : JsonMembers}
    {entries result : Entries AttributeValue} (h : entriesOfJson members entries = .ok result) :
    ∃ forms : List (String × Json), members = .ofList forms ∧ ∀ form ∈ forms, IsForm form.2 := by
  cases members with
  | close => exact ⟨[], rfl, by simp⟩
  | cut => cases h
  | cons name json tail =>
    cases name with
    | none => cases h
    | some name =>
      rw [entriesOfJson] at h
      obtain ⟨value, hjson, htail⟩ := Except.bind_eq_ok_iff.mp h
      obtain ⟨forms, rfl, hforms⟩ := exists_forms_of_entriesOfJson htail
      exact ⟨(name, json) :: forms, rfl,
        List.forall_mem_cons.mpr ⟨isForm_of_ofJson hjson, hforms⟩⟩

end

/-! ## What has the shape is accepted -/

theorem itemsToJson_eq (items : List AttributeValue) :
    itemsToJson items = .ofList (items.map toJson) := by
  induction items with
  | nil => rw [itemsToJson, List.map_nil, JsonItems.ofList]
  | cons item rest ih => rw [itemsToJson, ih, List.map_cons, JsonItems.ofList]

theorem entriesToJson_eq (entries : Entries AttributeValue) :
    entriesToJson entries = .ofList (entries.map fun entry => (entry.1, entry.2.toJson)) := by
  induction entries with
  | nil => rw [entriesToJson, List.map_nil, JsonMembers.ofList]
  | cons entry rest ih => rw [entriesToJson, ih, List.map_cons, JsonMembers.ofList]

/-- The tag of an object with one member says how the member is read. -/
theorem ofJson_tagged (type : AttributeType) (payload : Json) :
    ofJson (tagged type payload) = ofPayload type payload := by
  rw [tagged, ofJson, AttributeType.ofTag?_tag]
  exact bind_pure (ofPayload type payload)

theorem texts?_ofList (texts : List String) :
    (JsonItems.ofList (texts.map .string)).texts? = .ok texts :=
  texts?_eq_ok_iff.mpr rfl

theorem itemsOfJson_ofList {items : List Json} {values : List AttributeValue}
    (h : List.Forall₂ (fun json value => ofJson json = .ok value) items values) :
    itemsOfJson (.ofList items) = .ok values := by
  induction h with
  | nil => rfl
  | cons hitem _ ih =>
    rw [JsonItems.ofList, itemsOfJson, hitem, ih]
    rfl

/-- Members are taken up one by one, so that the last one of a name counts. -/
theorem entriesOfJson_ofList {members : List (String × Json)} {entries : Entries AttributeValue}
    (h : List.Forall₂ (fun member entry => member.1 = entry.1 ∧ ofJson member.2 = .ok entry.2)
      members entries) (before : Dict AttributeValue) :
    entriesOfJson (.ofList members) before.entries =
      .ok (entries.foldl (fun acc entry => acc.insert entry.1 entry.2) before).entries := by
  induction h generalizing before with
  | nil => rfl
  | @cons member entry _ _ hmember _ ih =>
    rw [JsonMembers.ofList, entriesOfJson, hmember.2, hmember.1]
    exact ih (before.insert entry.1 entry.2)

end AttributeValue

theorem exists_forall₂ {α β : Type} {R : α → β → Prop} {as : List α} (h : ∀ a ∈ as, ∃ b, R a b) :
    ∃ bs, List.Forall₂ R as bs := by
  induction as with
  | nil => exact ⟨[], .nil⟩
  | cons a as ih =>
    rw [List.forall_mem_cons] at h
    obtain ⟨b, hb⟩ := h.1
    obtain ⟨bs, hbs⟩ := ih h.2
    exact ⟨b :: bs, .cons hb hbs⟩

namespace Json

/-- What can be written is the same as itself. -/
theorem IsPlain.same_self {json : Json} (h : json.IsPlain) : json.Same json := by
  induction h with
  | null => exact .null
  | bool flag => exact .bool flag
  | integer n => exact .number _
  | string text => exact .string text
  | array _ ih => exact .array (List.forall₂_same.mpr ih)
  | object _ ih =>
    exact .object
      (Dict.rel_get?_ofList (List.forall₂_same.mpr fun member hm => ⟨rfl, ih member hm⟩))

end Json

namespace AttributeValue

theorem isPlain_tagged (type : AttributeType) {payload : Json} (h : payload.IsPlain) :
    (tagged type payload).IsPlain := by
  have hmembers : ∀ member ∈ [(type.tag, payload)], member.2.IsPlain := by simpa using h
  exact .object hmembers

theorem isPlain_texts (texts : List String) : (Json.ofItems (texts.map .string)).IsPlain :=
  .array (by simpa using fun text _ => Json.IsPlain.string text)

/-- What has the shape of a value can be written. -/
theorem IsForm.isPlain {json : Json} (h : IsForm json) : json.IsPlain := by
  induction h with
  | string text | number text => exact isPlain_tagged _ (.string text)
  | binary bytes => exact isPlain_tagged _ (.string _)
  | stringSet members | numberSet members => exact isPlain_tagged _ (isPlain_texts members)
  | binarySet members =>
    rw [← List.map_map]
    exact isPlain_tagged _ (isPlain_texts _)
  | bool flag | null flag => exact isPlain_tagged _ (.bool flag)
  | list _ ih => exact isPlain_tagged _ (.array ih)
  | map _ ih => exact isPlain_tagged _ (.object ih)

/-- The tag does not matter for whether two payloads are the same. -/
theorem same_tagged (type : AttributeType) {a b : Json} (h : a.Same b) :
    (tagged type a).Same (tagged type b) := by
  have hmembers : List.Forall₂ (fun a b => a.1 = b.1 ∧ Json.Same a.2 b.2)
      [(type.tag, a)] [(type.tag, b)] := .cons ⟨rfl, h⟩ .nil
  exact .object (Dict.rel_get?_ofList hmembers)

/-- A form is read as a value that is written as the same tree. -/
structure ReadsAs (json : Json) (value : AttributeValue) : Prop where
  eq_ok : ofJson json = .ok value
  wellFormed : value.WellFormed
  same : json.Same value.toJson

theorem ReadsAs.list {items : List Json} {values : List AttributeValue}
    (h : List.Forall₂ ReadsAs items values) :
    ReadsAs (tagged .list (.ofItems items)) (.list values) where
  eq_ok := by
    rw [ofJson_tagged]
    exact Except.map_eq_ok_iff.mpr ⟨values, itemsOfJson_ofList (h.imp fun _ _ h => h.eq_ok), rfl⟩
  wellFormed := by
    rw [WellFormed, wellFormedItems_iff]
    induction h with
    | nil => simp
    | cons hitem _ ih => exact List.forall_mem_cons.mpr ⟨hitem.wellFormed, ih⟩
  same := by
    rw [toJson, itemsToJson_eq]
    exact same_tagged _ (.array (List.forall₂_map_right_iff.mpr (h.imp fun _ _ h => h.same)))

theorem ReadsAs.map {members : List (String × Json)} {entries : Entries AttributeValue}
    (h : List.Forall₂ (fun member entry => member.1 = entry.1 ∧ ReadsAs member.2 entry.2)
      members entries) :
    ReadsAs (tagged .map (.ofMembers members)) (.map (Dict.ofList entries).entries) where
  eq_ok := by
    rw [ofJson_tagged]
    exact Except.map_eq_ok_iff.mpr
      ⟨_, entriesOfJson_ofList (h.imp fun _ _ h => ⟨h.1, h.2.eq_ok⟩) ∅, rfl⟩
  wellFormed := by
    rw [WellFormed, wellFormedEntries_iff]
    refine ⟨(Dict.ofList entries).nodup, fun entry hentry => ?_⟩
    have hrel := Dict.rel_get?_ofList h entry.1
    rw [((Dict.ofList entries).get?_eq_some_iff _ _).mpr hentry] at hrel
    generalize (Dict.ofList members).get? entry.1 = a at hrel
    cases hrel with
    | some h => exact h.wellFormed
  same := by
    rw [toJson, entriesToJson_eq]
    refine same_tagged _ (.object fun name => ?_)
    have hrel := Dict.rel_get?_ofList h name
    rw [Dict.get?_ofList_map]
    generalize (Dict.ofList members).get? name = a, (Dict.ofList entries).get? name = b at hrel ⊢
    cases hrel with
    | none => exact .none
    | some h => exact .some h.same

/-- What a value is written as is read as that value. -/
theorem ofJson_toJson {value : AttributeValue} (h : value.WellFormed) :
    ofJson value.toJson = .ok value := by
  induction value with
  | string text | number text => exact ofJson_tagged _ _
  | bool flag | null flag => exact ofJson_tagged _ _
  | binary bytes =>
    rw [toJson, ofJson_tagged]
    exact Except.map_eq_ok_iff.mpr ⟨bytes, decodeBytes_eq_ok_iff.mpr rfl, rfl⟩
  | stringSet members | numberSet members =>
    rw [toJson, ofJson_tagged]
    exact Except.map_eq_ok_iff.mpr ⟨members, texts?_ofList members, rfl⟩
  | binarySet members =>
    rw [toJson, ofJson_tagged, ← List.map_map]
    exact Except.bind_eq_ok_iff.mpr ⟨members.map Base64.encode, texts?_ofList _,
      Except.map_eq_ok_iff.mpr ⟨members, mapM_decodeBytes_eq_ok_iff.mpr rfl, rfl⟩⟩
  | list items ih =>
    rw [WellFormed, wellFormedItems_iff] at h
    rw [toJson, itemsToJson_eq, ofJson_tagged]
    exact Except.map_eq_ok_iff.mpr ⟨items, itemsOfJson_ofList (List.forall₂_map_left_iff.mpr
      (List.forall₂_same.mpr fun item hitem => ih item hitem (h item hitem))), rfl⟩
  | map entries ih =>
    rw [WellFormed, wellFormedEntries_iff] at h
    rw [toJson, entriesToJson_eq, ofJson_tagged]
    have hentries : List.Forall₂
        (fun member entry => member.1 = entry.1 ∧ ofJson member.2 = .ok entry.2)
        (entries.map fun entry => (entry.1, entry.2.toJson)) entries :=
      List.forall₂_map_left_iff.mpr (List.forall₂_same.mpr fun entry hentry =>
        ⟨rfl, ih entry hentry (h.2 entry hentry)⟩)
    have hread := entriesOfJson_ofList hentries ∅
    -- No name comes twice, so no entry is overwritten.
    exact Except.map_eq_ok_iff.mpr
      ⟨entries, hread.trans (congrArg _ (Dict.entries_ofList h.1)), rfl⟩

/-- A value without members is read from what it is written as. -/
theorem ReadsAs.of_isNested (value : AttributeValue) (h : value.isNested = false) :
    ReadsAs value.toJson value := by
  have hvalue : value.WellFormed := by
    cases value with
    | list _ | map _ => cases h
    | _ => trivial
  have hread := ofJson_toJson hvalue
  exact ⟨hread, hvalue, (isForm_of_ofJson hread).isPlain.same_self⟩

/-- Whatever has the shape is accepted. -/
theorem IsForm.exists_readsAs {json : Json} (h : IsForm json) : ∃ value, ReadsAs json value := by
  induction h with
  | string text => exact ⟨_, .of_isNested (.string text) rfl⟩
  | number numeral => exact ⟨_, .of_isNested (.number numeral) rfl⟩
  | binary bytes => exact ⟨_, .of_isNested (.binary bytes) rfl⟩
  | stringSet members => exact ⟨_, .of_isNested (.stringSet members) rfl⟩
  | numberSet members => exact ⟨_, .of_isNested (.numberSet members) rfl⟩
  | binarySet members => exact ⟨_, .of_isNested (.binarySet members) rfl⟩
  | bool flag => exact ⟨_, .of_isNested (.bool flag) rfl⟩
  | null flag => exact ⟨_, .of_isNested (.null flag) rfl⟩
  | list _ ih =>
    obtain ⟨values, hvalues⟩ := exists_forall₂ ih
    exact ⟨_, .list hvalues⟩
  | @map members _ ih =>
    have hentry : ∀ member ∈ members, ∃ entry : String × AttributeValue,
        member.1 = entry.1 ∧ ReadsAs member.2 entry.2 := by
      intro member hmember
      obtain ⟨value, hvalue⟩ := ih member hmember
      exact ⟨(member.1, value), rfl, hvalue⟩
    obtain ⟨entries, hentries⟩ := exists_forall₂ hentry
    exact ⟨_, .map hentries⟩

/-! ## The codec -/

/-- A form is read in one way. -/
theorem readsAs_of_ofJson {json : Json} {value : AttributeValue} (h : ofJson json = .ok value) :
    ReadsAs json value := by
  obtain ⟨other, hother⟩ := (isForm_of_ofJson h).exists_readsAs
  obtain rfl : other = value := Except.ok.inj (hother.eq_ok.symm.trans h)
  exact hother

/-- The text of a value is read as that value. -/
theorem decodeText_render {value : AttributeValue} (h : value.WellFormed)
    (hdepth : value.toJson.depth ≤ Json.nestingLimit) :
    decodeText ofJson value.toJson.render = .ok value := by
  have hread := ofJson_toJson h
  rw [decodeText, (isForm_of_ofJson hread).isPlain.read_render hdepth]
  exact Except.bind_eq_ok_iff.mpr ⟨value, hread, rfl⟩

/-- **The JSON form of values is exact in both directions.**  A value is read back from its form,
and from the text of the form if that is not nested too deep.  Whatever is read is written again as
it was, but for the order of members and for members that were overridden.  And what is read at all
is an object of one member that is named by a tag and holds what the tag calls for. -/
theorem json_codec :
    (∀ value : AttributeValue, value.WellFormed →
      ofJson value.toJson = .ok value ∧
        (value.toJson.depth ≤ Json.nestingLimit →
          decodeText ofJson value.toJson.render = .ok value)) ∧
    (∀ (json : Json) (value : AttributeValue), ofJson json = .ok value →
      value.WellFormed ∧ json.Same value.toJson) ∧
    ∀ json : Json, (∃ value, ofJson json = .ok value) ↔ IsForm json := by
  refine ⟨fun value hvalue => ⟨ofJson_toJson hvalue, decodeText_render hvalue⟩,
    fun json value h => ?_, fun json => ⟨?_, fun h => ?_⟩⟩
  · have hreads := readsAs_of_ofJson h
    exact ⟨hreads.wellFormed, hreads.same⟩
  · rintro ⟨value, h⟩
    exact isForm_of_ofJson h
  · obtain ⟨value, hvalue⟩ := h.exists_readsAs
    exact ⟨value, hvalue.eq_ok⟩

/-- Bytes inside a map are read back from their text, and of two members with one name the later one
is read. -/
theorem json_codec_of_bytes :
    decodeText ofJson "\x7b\"M\":\x7b\"k\":\x7b\"B\":\"AQI=\"\x7d\x7d\x7d" =
        .ok (.map [("k", .binary [1, 2])]) ∧
      (tagged .map (.ofMembers
        [("k", tagged .bool (.bool true)), ("k", tagged .binary (.string "AQI="))])).Same
        (toJson (.map [("k", .binary [1, 2])])) ∧
      IsForm (tagged .map (.ofMembers
        [("k", tagged .bool (.bool true)), ("k", tagged .binary (.string "AQI="))])) := by
  have hwellFormed : (AttributeValue.map [("k", .binary [1, 2])]).WellFormed :=
    ⟨by decide, trivial, trivial⟩
  have hread : ofJson (tagged .map (.ofMembers
      [("k", tagged .bool (.bool true)), ("k", tagged .binary (.string "AQI="))])) =
        .ok (.map [("k", .binary [1, 2])]) := by rfl
  exact ⟨(json_codec.1 _ hwellFormed).2 (by decide), (json_codec.2.1 _ _ hread).2,
    (json_codec.2.2 _).mp ⟨_, hread⟩⟩

end AttributeValue

end DocExpr
