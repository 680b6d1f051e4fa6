import DocExpr.Proofs.FiniteNumbers
import DocExpr.Proofs.ValueCodec
import DocExpr.Request.Body

/-!
# Request bodies are exact

A body is written from the members that are present and read member by member, in whatever order
they come.  What is read is therefore compared with the body not as a whole but as far as reading
has come: after some members it is the body reduced to these, `Body.pick`.  An absent member is not
written, and reducing a body to a member that is absent changes nothing; so reading ends with the
body itself, if an operation knows all its members.

The operations share one stock of members.  What the body of each looks like is said beside it by a
list of its own, `Request.written`.

## Main definitions

* `Request.written`: the members of the body of a request, in order
* `Request.WellFormed`: what the types of requests promise
* `Body.pick`: a body reduced to some members

## Main results

* `Body.collect_members`: reading takes up the members that were written
* `Body.ofJson_toJson`, `Request.ofJson_toJson`: bodies and requests are read back
* `Request.body_round_trip`: the body of a request, its text, and what is not in it
-/

namespace DocExpr

/-! ## The bodies of the operations -/

/-- A member that is left out when there is no value. -/
def optional {α : Type} (name : String) (toJson : α → Json) (value? : Option α) :
    Option (String × Json) :=
  (value?.map toJson).map (name, ·)

/-- A member that is left out when a dictionary is empty. -/
def unlessEmpty {α : Type} (name : String) (toJson : Dict α → Json) (dict : Dict α) :
    Option (String × Json) :=
  if dict.isEmpty then none else some (name, toJson dict)

/-- The members of the body of a request, in order.  What an operation has to be given is always
there; the rest is left out when it is absent or empty. -/
def Request.slots : Request → List (Option (String × Json))
  | .getItem request => [
      some ("TableName", .string request.table),
      some ("Key", request.key.toJson),
      optional "ConsistentRead" .bool request.consistentRead,
      optional "ProjectionExpression" .string request.projection,
      unlessEmpty "ExpressionAttributeNames" Body.textsToJson request.names]
  | .putItem request => [
      some ("TableName", .string request.table),
      some ("Item", request.item.toJson),
      optional "ConditionExpression" .string request.condition,
      unlessEmpty "ExpressionAttributeNames" Body.textsToJson request.names,
      unlessEmpty "ExpressionAttributeValues" Item.toJson request.values]
  | .updateItem request => [
      some ("TableName", .string request.table),
      some ("Key", request.key.toJson),
      optional "UpdateExpression" .string request.update,
      optional "ConditionExpression" .string request.condition,
      unlessEmpty "ExpressionAttributeNames" Body.textsToJson request.names,
      unlessEmpty "ExpressionAttributeValues" Item.toJson request.values]
  | .deleteItem request => [
      some ("TableName", .string request.table),
      some ("Key", request.key.toJson),
      optional "ConditionExpression" .string request.condition,
      unlessEmpty "ExpressionAttributeNames" Body.textsToJson request.names,
      unlessEmpty "ExpressionAttributeValues" Item.toJson request.values]
  | .query request => [
      some ("TableName", .string request.table),
      optional "IndexName" .string request.index,
      optional "KeyConditionExpression" .string request.keyCondition,
      optional "FilterExpression" .string request.filter,
      optional "ProjectionExpression" .string request.projection,
      unlessEmpty "ExpressionAttributeNames" Body.textsToJson request.names,
      unlessEmpty "ExpressionAttributeValues" Item.toJson request.values,
      optional "ScanIndexForward" .bool request.forward,
      optional "Limit" (fun limit => .number (toString limit)) request.limit,
      optional "ConsistentRead" .bool request.consistentRead]
  | .scan request => [
      some ("TableName", .string request.table),
      optional "IndexName" .string request.index,
      optional "FilterExpression" .string request.filter,
      optional "ProjectionExpression" .string request.projection,
      unlessEmpty "ExpressionAttributeNames" Body.textsToJson request.names,
      unlessEmpty "ExpressionAttributeValues" Item.toJson request.values,
      optional "Limit" (fun limit => .number (toString limit)) request.limit,
      optional "ConsistentRead" .bool request.consistentRead]

/-- The members that are there. -/
def Request.written (request : Request) : List (String × Json) := request.slots.reduceOption

/-- How many items a request asks for at most. -/
def Request.limit? : Request → Option Int
  | .query request => request.limit
  | .scan request => request.limit
  | _ => none

/-- What the types of requests promise: the names inside every map are distinct, and a limit is an
integer of 32 bits. -/
structure Request.WellFormed (request : Request) : Prop where
  values : ∀ value ∈ request.attributeValues, value.WellFormed
  limit : ∀ limit ∈ request.limit?, IntegerType.int32.contains limit = true

/-- The members that are there are those that the body has, in the order of the operation. -/
theorem Request.written_eq (request : Request) :
    request.written = request.operation.members.filterMap fun member =>
      (request.toBody.member? member).map (member.name, ·) := by
  have hmap : ∀ {α : Type} (name : String) (f : Dict α → Json) (dict : Dict α),
      ((Body.mapMember? dict).map f).map (name, ·) = unlessEmpty name f dict := by
    intro α name f dict
    rw [Body.mapMember?, unlessEmpty]
    split <;> rfl
  have hslots : request.slots = request.operation.members.map fun member =>
      (request.toBody.member? member).map (member.name, ·) := by
    cases request <;> simp only [slots, ← hmap] <;> rfl
  rw [written, hslots]
  exact List.filterMap_map

theorem Request.toJson_eq (request : Request) : request.toJson = .ofMembers request.written := by
  rw [request.written_eq]
  rfl

/-! ## Members one by one -/

theorem Member.name_injective {a b : Member} (h : a.name = b.name) : a = b := by
  revert h
  cases a <;> cases b <;> decide

/-- No operation knows a member twice. -/
theorem Operation.nodup_members (operation : Operation) : operation.members.Nodup := by
  cases operation <;> decide

/-- An item is read back. -/
theorem Item.ofJson_toJson {item : Item} (h : ∀ value ∈ item.values, value.WellFormed) :
    Item.ofJson item.toJson = .ok item := by
  have hentries : List.Forall₂
      (fun member entry => member.1 = entry.1 ∧ AttributeValue.ofJson member.2 = .ok entry.2)
      (item.entries.map fun entry => (entry.1, entry.2.toJson)) item.entries :=
    List.forall₂_map_left_iff.mpr (List.forall₂_same.mpr fun entry hentry =>
      ⟨rfl, AttributeValue.ofJson_toJson (h entry.2 (List.mem_map_of_mem hentry))⟩)
  have hread := AttributeValue.entriesOfJson_ofList hentries ∅
  rw [Item.toJson, AttributeValue.entriesToJson_eq]
  refine Except.map_eq_ok_iff.mpr ⟨_, hread, ?_⟩
  -- The entries have distinct names, so taking them up one by one keeps them.
  exact (Dict.ofList_entries _).trans item.ofList_entries

namespace Body

/-- Texts are read back. -/
theorem textsOfJson_textsToJson (texts : Dict String) :
    textsOfJson (textsToJson texts) = .ok texts := by
  have hdecode : ∀ (entries : Entries String) (before : Dict String),
      (JsonMembers.ofList (entries.map fun entry => (entry.1, Json.string entry.2))).decodeEntries
        Json.text? before.entries =
      .ok (entries.foldl (fun acc entry => acc.insert entry.1 entry.2) before).entries := by
    intro entries
    induction entries with
    | nil => exact fun before => rfl
    | cons entry rest ih => exact fun before => ih (before.insert entry.1 entry.2)
  refine Except.map_eq_ok_iff.mpr ⟨_, hdecode texts.entries ∅, ?_⟩
  exact (Dict.ofList_entries _).trans texts.ofList_entries

/-- A count is read back. -/
theorem countOfJson_toString {count : Int} (h : IntegerType.int32.contains count = true) :
    countOfJson (.number (toString count)) = .ok count := by
  -- Zero is written without a sign, so the literal that is refused does not occur.
  have hminus : toString count ≠ "-0" := by
    intro heq
    have hread := IntegerType.read?_toString .int32 h
    obtain rfl : count = 0 := by
      rw [heq] at hread
      exact (Option.some.inj hread).symm
    exact absurd heq (by decide)
  rw [countOfJson, if_neg hminus, IntegerType.read?_toString _ h]

/-- What of a body is read back. -/
structure Exact (body : Body) : Prop where
  key : ∀ item ∈ body.key, Item.ofJson (Item.toJson item) = .ok item
  item : ∀ item ∈ body.item, Item.ofJson (Item.toJson item) = .ok item
  values : ∀ item ∈ body.values, Item.ofJson (Item.toJson item) = .ok item
  limit : ∀ limit ∈ body.limit, countOfJson (.number (toString limit)) = .ok limit

/-- A body reduced to some members. -/
def pick (body : Body) (keep : Member → Bool) : Body where
  tableName := if keep .tableName then body.tableName else none
  key := if keep .key then body.key else none
  item := if keep .item then body.item else none
  indexName := if keep .indexName then body.indexName else none
  keyCondition := if keep .keyCondition then body.keyCondition else none
  filter := if keep .filter then body.filter else none
  update := if keep .update then body.update else none
  condition := if keep .condition then body.condition else none
  projection := if keep .projection then body.projection else none
  names := if keep .names then body.names else none
  values := if keep .values then body.values else none
  forward := if keep .forward then body.forward else none
  limit := if keep .limit then body.limit else none
  consistentRead := if keep .consistentRead then body.consistentRead else none

/-- One more member that is kept. -/
def keepAlso (keep : Member → Bool) (member : Member) (other : Member) : Bool :=
  if other = member then true else keep other

/-- A member that is absent may as well be kept. -/
theorem pick_keepAlso_of_absent {body : Body} {member : Member} (h : body.member? member = none)
    (keep : Member → Bool) : body.pick (keepAlso keep member) = body.pick keep := by
  cases member <;> simp_all [pick, keepAlso, member?]

/-- Reading a member that was written adds it to those that are kept. -/
theorem take_member {body : Body} (hbody : body.Exact) {member : Member} {json : Json}
    (h : body.member? member = some json) (keep : Member → Bool) :
    (body.pick keep).take member json = .ok (body.pick (keepAlso keep member)) := by
  cases member <;> obtain ⟨value, hvalue, rfl⟩ := Option.map_eq_some_iff.mp h
  case key => simp [take, pick, keepAlso, hvalue, hbody.key value hvalue]
  case item => simp [take, pick, keepAlso, hvalue, hbody.item value hvalue]
  case values => simp [take, pick, keepAlso, hvalue, hbody.values value hvalue]
  case names => simp [take, pick, keepAlso, hvalue, textsOfJson_textsToJson]
  case limit =>
    have hcount := hbody.limit value hvalue
    generalize toString value = literal at hcount ⊢
    simp [take, pick, keepAlso, nullable, hvalue, hcount]
  all_goals simp [take, pick, keepAlso, nullable, Json.text?, Json.flag?, hvalue]

/-- A member that is known is found by its name. -/
theorem find?_name {known : List Member} {member : Member} (h : member ∈ known) :
    known.find? (fun other => other.name = member.name) = some member := by
  induction known with
  | nil => cases h
  | cons other rest ih =>
    by_cases hname : other.name = member.name
    · rw [List.find?_cons_of_pos (by simpa using hname), Member.name_injective hname]
    · rw [List.find?_cons_of_neg (by simpa using hname)]
      refine ih ((List.mem_cons.mp h).resolve_left ?_)
      rintro rfl
      exact hname rfl

/-- **Reading takes up the members that were written**, and passes over those that were not. -/
theorem collect_members {body : Body} (hbody : body.Exact) (known members : List Member)
    (hknown : ∀ member ∈ members, member ∈ known) (nodup : members.Nodup) (draft : Draft)
    (hnew : ∀ member ∈ members, member ∉ draft.seen) (keep : Member → Bool)
    (hdraft : draft.body = body.pick keep) :
    ∃ seen, (JsonMembers.ofList (members.filterMap fun member =>
      (body.member? member).map (member.name, ·))).collect (Draft.member? known) draft =
        .ok ⟨seen, body.pick (members.foldl keepAlso keep)⟩ := by
  -- What was read so far is the body reduced to `keep`; the induction goes on from any such draft.
  induction members generalizing draft keep with
  | nil => exact ⟨draft.seen, by rw [List.foldl_nil, ← hdraft]; rfl⟩
  | cons member rest ih =>
    obtain ⟨hmember, hrest⟩ := List.forall_mem_cons.mp hknown
    obtain ⟨hfresh, hfreshRest⟩ := List.forall_mem_cons.mp hnew
    obtain ⟨hnotMem, hnodup⟩ := List.nodup_cons.mp nodup
    rw [List.foldl_cons]
    cases hjson : body.member? member with
    | none =>
      rw [List.filterMap_cons_none (by rw [hjson]; rfl)]
      -- An absent member is not written, and keeping it changes nothing.
      refine ih hrest hnodup draft hfreshRest (keepAlso keep member) ?_
      rw [hdraft, pick_keepAlso_of_absent hjson]
    | some json =>
      rw [List.filterMap_cons_some (by rw [hjson]; rfl), JsonMembers.ofList, JsonMembers.collect,
        Draft.member?, find?_name hmember]
      have htake := take_member hbody hjson keep
      rw [← hdraft] at htake
      simp only [Option.map_some, if_neg hfresh, htake]
      refine ih hrest hnodup ⟨member :: draft.seen, _⟩ ?_ (keepAlso keep member) rfl
      intro other hother
      rw [List.mem_cons, not_or]
      exact ⟨fun heq => hnotMem (heq ▸ hother), hfreshRest other hother⟩

/-- A body whose members are all known is read back. -/
theorem ofJson_toJson {body : Body} (hbody : body.Exact) {members : List Member}
    (nodup : members.Nodup) (hall : body.pick (members.foldl keepAlso fun _ => false) = body) :
    ofJson members (body.toJson members) = .ok body := by
  obtain ⟨seen, hcollect⟩ := collect_members hbody members members (fun _ h => h) nodup {}
    (fun _ _ => List.not_mem_nil) (fun _ => false) rfl
  rw [hall] at hcollect
  exact Except.map_eq_ok_iff.mpr ⟨_, hcollect, rfl⟩

/-! ## What the members are -/

theorem isPlain_of_ofJson {json : Json} {item : Item} (h : Item.ofJson json = .ok item) :
    json.IsPlain := by
  cases json with
  | object members =>
    obtain ⟨entries, hentries, -⟩ := Except.map_eq_ok_iff.mp h
    obtain ⟨forms, rfl, hforms⟩ := AttributeValue.exists_forms_of_entriesOfJson hentries
    exact .object fun form hform => (hforms form hform).isPlain
  | _ => cases h

/-- Every member can be read back from its text. -/
theorem isPlain_member {body : Body} (hbody : body.Exact) {member : Member} {json : Json}
    (h : body.member? member = some json) : json.IsPlain := by
  cases member <;> obtain ⟨value, hvalue, rfl⟩ := Option.map_eq_some_iff.mp h
  case key => exact isPlain_of_ofJson (hbody.key value hvalue)
  case item => exact isPlain_of_ofJson (hbody.item value hvalue)
  case values => exact isPlain_of_ofJson (hbody.values value hvalue)
  case names =>
    refine .object fun entry hentry => ?_
    obtain ⟨⟨name, text⟩, -, rfl⟩ := List.mem_map.mp hentry
    exact .string text
  case limit => exact .integer value
  case forward | consistentRead => exact .bool value
  all_goals exact .string value

theorem isPlain_toJson {body : Body} (hbody : body.Exact) (members : List Member) :
    (body.toJson members).IsPlain := by
  refine .object fun entry hentry => ?_
  obtain ⟨member, -, hmember⟩ := List.mem_filterMap.mp hentry
  obtain ⟨json, hjson, rfl⟩ := Option.map_eq_some_iff.mp hmember
  exact isPlain_member hbody hjson

/-- No member is null. -/
theorem ne_null_of_member? {body : Body} {member : Member} {json : Json}
    (h : body.member? member = some json) : json ≠ .null := by
  cases member <;> obtain ⟨value, -, rfl⟩ := Option.map_eq_some_iff.mp h <;> exact nofun

theorem eq_of_mem_mapMember? {α : Type} {dict other : Dict α} (h : other ∈ mapMember? dict) :
    other = dict ∧ other.isEmpty = false := by
  rw [mapMember?] at h
  split at h
  · cases h
  · next hempty =>
    obtain rfl := Option.some.inj h
    exact ⟨rfl, Bool.eq_false_iff.mpr hempty⟩

theorem getD_mapMember? {α : Type} (dict : Dict α) : (mapMember? dict).getD ∅ = dict := by
  rw [mapMember?]
  split
  · next hempty => exact (Dict.ext (List.isEmpty_iff.mp hempty)).symm
  · rfl

end Body

namespace Request

variable {request : Request}

/-- What a request sends is read back. -/
theorem WellFormed.exact_toBody (h : request.WellFormed) : request.toBody.Exact := by
  have hstored : Item.ofJson (Item.toJson request.stored) = .ok request.stored :=
    Item.ofJson_toJson fun value hvalue => h.values value (List.mem_append_left _ hvalue)
  have hvalues : Item.ofJson (Item.toJson request.meanings.values) = .ok request.meanings.values :=
    Item.ofJson_toJson fun value hvalue => h.values value (List.mem_append_right _ hvalue)
  -- The key, the item and the values of a body are those that the request sends.
  have hkey : ∀ item ∈ request.toBody.key, item = request.stored := by
    cases request <;> rintro _ ⟨⟩ <;> rfl
  have hitem : ∀ item ∈ request.toBody.item, item = request.stored := by
    cases request <;> rintro _ ⟨⟩
    rfl
  have hmap : ∀ item ∈ request.toBody.values, item = request.meanings.values := by
    cases request <;> intro item hitem <;>
      first | cases hitem | exact (Body.eq_of_mem_mapMember? hitem).1
  have hlimit : ∀ limit ∈ request.toBody.limit, limit ∈ request.limit? := by
    cases request <;> exact fun _ hlimit => hlimit
  exact {
    key := fun item h => by rw [hkey item h, hstored]
    item := fun item h => by rw [hitem item h, hstored]
    values := fun item h => by rw [hmap item h, hvalues]
    limit := fun limit hmem => Body.countOfJson_toString (h.limit limit (hlimit limit hmem)) }

/-- The members of a request are those that its operation knows. -/
theorem pick_toBody (request : Request) :
    request.toBody.pick (request.operation.members.foldl Body.keepAlso fun _ => false) =
      request.toBody := by
  cases request <;> rfl

theorem ofBody_toBody (request : Request) :
    ofBody request.operation request.toBody = .ok request := by
  cases request <;>
    (simp only [ofBody, operation, toBody, Body.require, Body.getD_mapMember?]; rfl)

/-- **A request is read back from its body.** -/
theorem ofJson_toJson (h : request.WellFormed) :
    ofJson request.operation request.toJson = .ok request := by
  have hbody := Body.ofJson_toJson h.exact_toBody request.operation.nodup_members
    request.pick_toBody
  exact Except.bind_eq_ok_iff.mpr ⟨request.toBody, hbody, request.ofBody_toBody⟩

/-- An expression map is a member only if it has entries. -/
theorem ne_close_of_member? {request : Request} {member : Member}
    (hmap : member.isExpressionMap = true) {json : Json}
    (h : request.toBody.member? member = some json) : json ≠ .object .close := by
  have hmembers : ∀ members : List (String × Json), members ≠ [] →
      Json.ofMembers members ≠ .object .close := by
    rintro (_ | ⟨member, members⟩) hne
    · exact absurd rfl hne
    · exact nofun
  have hnames : ∀ dict ∈ request.toBody.names, dict.isEmpty = false := by
    cases request <;> exact fun _ h => (Body.eq_of_mem_mapMember? h).2
  have hvalues : ∀ dict ∈ request.toBody.values, dict.isEmpty = false := by
    cases request <;> intro dict h <;> first | cases h | exact (Body.eq_of_mem_mapMember? h).2
  cases member <;> try cases hmap
  case names =>
    obtain ⟨dict, hdict, rfl⟩ := Option.map_eq_some_iff.mp h
    exact hmembers _ (by simpa [Dict.isEmpty] using hnames dict hdict)
  case values =>
    obtain ⟨dict, hdict, rfl⟩ := Option.map_eq_some_iff.mp h
    rw [Item.toJson, AttributeValue.entriesToJson_eq]
    exact hmembers _ (by simpa [Dict.isEmpty] using hvalues dict hdict)

/-- The text of a body is read as the request. -/
theorem decodeText_render (h : request.WellFormed)
    (hdepth : request.toJson.depth ≤ Json.nestingLimit) :
    decodeText (ofJson request.operation) request.toJson.render = .ok request := by
  have hplain : request.toJson.IsPlain := Body.isPlain_toJson h.exact_toBody _
  rw [decodeText, hplain.read_render hdepth]
  exact Except.bind_eq_ok_iff.mpr ⟨request, ofJson_toJson h, rfl⟩

/-- **Request bodies are exact.**  Whatever is present in a request and whatever is absent, its body
has the members that the operation prescribes, none of them null and none an expression map without
entries; the request is read back from the body, and from the text of the body if that is not nested
too deep. -/
theorem body_round_trip (request : Request) (h : request.WellFormed) :
    request.toJson = .ofMembers request.written ∧
      (∀ member ∈ request.written, member.2 ≠ .null ∧
        (member.1 = "ExpressionAttributeNames" ∨ member.1 = "ExpressionAttributeValues" →
          member.2 ≠ .object .close)) ∧
      ofJson request.operation request.toJson = .ok request ∧
      (request.toJson.depth ≤ Json.nestingLimit →
        decodeText (ofJson request.operation) request.toJson.render = .ok request) := by
  refine ⟨request.toJson_eq, fun entry hentry => ?_, ofJson_toJson h, decodeText_render h⟩
  rw [request.written_eq] at hentry
  obtain ⟨member, -, hmember⟩ := List.mem_filterMap.mp hentry
  obtain ⟨json, hjson, rfl⟩ := Option.map_eq_some_iff.mp hmember
  refine ⟨Body.ne_null_of_member? hjson, fun hname => ne_close_of_member? ?_ hjson⟩
  rcases hname with hname | hname
  · rw [Member.name_injective (b := .names) hname]
    rfl
  · rw [Member.name_injective (b := .values) hname]
    rfl

/-- A query with a limit below zero, a map among its values and no index. -/
theorem body_round_trip_query :
    let request : Request := .query {
      table := "shelves"
      keyCondition := some "#l = :l"
      names := .singleton "#l" "label"
      values := .singleton ":l" (.map [("tags", .stringSet ["old"]), ("last", .null true)])
      limit := some (-3) }
    request.toJson.render =
      "\x7b\"TableName\":\"shelves\",\"KeyConditionExpression\":\"#l = :l\"," ++
      "\"ExpressionAttributeNames\":\x7b\"#l\":\"label\"\x7d," ++
      "\"ExpressionAttributeValues\":\x7b\":l\":\x7b\"M\":\x7b" ++
      "\"tags\":\x7b\"SS\":[\"old\"]\x7d,\"last\":\x7b\"NULL\":true\x7d\x7d\x7d\x7d," ++
      "\"Limit\":-3\x7d" ∧
    decodeText (ofJson .query) request.toJson.render = .ok request := by
  intro request
  have hvalues : ∀ value ∈ request.attributeValues, value.WellFormed := by
    have hvalue : request.attributeValues =
        [.map [("tags", .stringSet ["old"]), ("last", .null true)]] := rfl
    rw [hvalue, List.forall_mem_singleton]
    exact ⟨by decide, trivial, trivial, trivial⟩
  have hlimit : ∀ limit ∈ request.limit?, IntegerType.int32.contains limit = true := by
    rintro _ ⟨⟩
    rfl
  obtain ⟨-, -, -, htext⟩ := body_round_trip request ⟨hvalues, hlimit⟩
  exact ⟨by decide +kernel, htext (by decide +kernel)⟩

end Request

end DocExpr
