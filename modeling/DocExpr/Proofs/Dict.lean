import DocExpr.Dict
import Mathlib.Data.List.Forall2
import Mathlib.Data.List.Induction
import Mathlib.Data.List.Nodup

/-!
# Laws of dictionaries

Look-up and keys after a merge and after `Dict.ofList`.  A merge answers from its second dictionary
first, and a dictionary of a list answers with the last entry of a key.

## Main results

* `Dict.get?_merge`, `Dict.mem_keys_merge`: what a merge holds
* `Dict.get?_ofList`, `Dict.keys_ofList`: the last entry of a key counts, at the place of the first
* `Dict.perm_entries_iff`: dictionaries that answer alike have the same entries
* `Dict.rel_get?_ofList`: lists of related entries make dictionaries that answer alike
-/

namespace DocExpr

universe u

variable {α : Type u}

namespace Entries

theorem mem_of_get? {entries : Entries α} {key : String} {value : α}
    (h : entries.get? key = some value) : (key, value) ∈ entries := by
  induction entries with
  | nil => cases h
  | cons entry rest ih =>
    obtain ⟨k, v⟩ := entry
    rw [get?] at h
    split at h
    · next hk => simp_all
    · exact List.mem_cons_of_mem _ (ih h)

theorem get?_of_mem {entries : Entries α} (nodup : entries.keys.Nodup) {key : String} {value : α}
    (h : (key, value) ∈ entries) : entries.get? key = some value := by
  induction entries with
  | nil => cases h
  | cons entry rest ih =>
    obtain ⟨k, v⟩ := entry
    obtain ⟨hk, hrest⟩ := List.nodup_cons.mp nodup
    rw [get?]
    rcases List.mem_cons.mp h with heq | hm
    · obtain ⟨rfl, rfl⟩ := Prod.mk.inj heq
      simp
    · have hne : k ≠ key := by
        rintro rfl
        exact hk (List.mem_map.mpr ⟨_, hm, rfl⟩)
      rw [if_neg hne]
      exact ih hrest hm

theorem get?_eq_none_iff (entries : Entries α) (key : String) :
    entries.get? key = none ↔ key ∉ keys entries := by
  rw [← isSome_get?_iff]
  simp

/-- A new key goes to the end. -/
theorem set_of_notMem {entries : Entries α} {key : String} (h : key ∉ entries.keys) (value : α) :
    entries.set key value = entries ++ [(key, value)] := by
  induction entries with
  | nil => rfl
  | cons entry rest ih =>
    obtain ⟨k, v⟩ := entry
    obtain ⟨hne, hrest⟩ := not_or.mp (List.mem_cons.not.mp h)
    rw [set, if_neg (Ne.symm hne), ih hrest, List.cons_append]

end Entries

namespace Dict

variable (d e : Dict α)

theorem get?_eq_some_iff (key : String) (value : α) :
    d.get? key = some value ↔ (key, value) ∈ d.entries :=
  ⟨Entries.mem_of_get?, Entries.get?_of_mem d.nodup⟩

theorem get?_eq_none_iff (key : String) : d.get? key = none ↔ key ∉ d.keys :=
  Entries.get?_eq_none_iff d.entries key

theorem mem_keys_iff (key : String) : key ∈ d.keys ↔ ∃ value, d.get? key = some value := by
  rw [← contains_iff, contains, Option.isSome_iff_exists]

theorem mem_keys_of_get? {d : Dict α} {key : String} {value : α} (h : d.get? key = some value) :
    key ∈ d.keys :=
  (d.mem_keys_iff key).mpr ⟨value, h⟩

@[simp] theorem keys_empty : (∅ : Dict α).keys = [] := rfl

theorem eq_empty_of_forall_notMem {d : Dict α} (h : ∀ key, key ∉ d.keys) : d = ∅ :=
  ext (List.map_eq_nil_iff.mp (List.eq_nil_iff_forall_not_mem.mpr h))

@[simp] theorem keys_singleton (key : String) (value : α) :
    (singleton key value).keys = [key] := rfl

theorem get?_singleton (key : String) (value : α) (other : String) :
    (singleton key value).get? other = if key = other then some value else none := rfl

theorem mem_keys_insert (key : String) (value : α) (other : String) :
    other ∈ (d.insert key value).keys ↔ other = key ∨ other ∈ d.keys := by
  rw [keys_insert]
  split
  · next hk => exact ⟨Or.inr, fun h => h.elim (fun h => h ▸ hk) id⟩
  · simp [or_comm]

/-! ## Merges -/

/-- Entries with distinct keys, inserted one by one, count before what was there. -/
theorem get?_foldl_insert (entries : Entries α) (nodup : entries.keys.Nodup) (d : Dict α)
    (key : String) :
    (entries.foldl (fun acc entry => acc.insert entry.1 entry.2) d).get? key =
      (entries.get? key).or (d.get? key) := by
  induction entries generalizing d with
  | nil => simp [Entries.get?]
  | cons entry rest ih =>
    obtain ⟨k, v⟩ := entry
    obtain ⟨hk, hrest⟩ := List.nodup_cons.mp nodup
    rw [List.foldl_cons, ih hrest, get?_insert, Entries.get?]
    -- The key of the first entry does not come again, so its value is not overwritten.
    split
    · next heq =>
      rw [(Entries.get?_eq_none_iff rest key).mpr (heq ▸ hk)]
      rfl
    · rfl

/-- A merge answers from its second dictionary first. -/
theorem get?_merge (key : String) : (d.merge e).get? key = (e.get? key).or (d.get? key) :=
  get?_foldl_insert e.entries e.nodup d key

theorem mem_keys_merge (key : String) : key ∈ (d.merge e).keys ↔ key ∈ d.keys ∨ key ∈ e.keys := by
  rw [mem_keys_iff, mem_keys_iff, mem_keys_iff, get?_merge]
  cases e.get? key <;> cases d.get? key <;> simp

@[simp] theorem merge_empty : d.merge ∅ = d := rfl

/-! ## Dictionaries of lists -/

theorem ofList_concat (entries : List (String × α)) (entry : String × α) :
    ofList (entries ++ [entry]) = (ofList entries).insert entry.1 entry.2 := by
  simp [ofList, List.foldl_append]

/-- The keys of a list stand in the order in which they first occur. -/
theorem keys_ofList (entries : List (String × α)) :
    (ofList entries).keys = (entries.map Prod.fst).eraseDups := by
  induction entries using List.reverseRecOn with
  | nil => rfl
  | append_singleton entries entry ih =>
    rw [ofList_concat, keys_insert, ih, List.map_append, List.eraseDups_append]
    -- The last key keeps an earlier place if it has one.
    by_cases hm : entry.1 ∈ entries.map Prod.fst
    · simp [List.mem_eraseDups, hm, List.removeAll]
    · simp [List.mem_eraseDups, hm, List.removeAll, List.eraseDups_cons]

/-- Entries with distinct keys are kept as they are. -/
theorem entries_ofList {entries : Entries α} (nodup : entries.keys.Nodup) :
    (ofList entries).entries = entries := by
  induction entries using List.reverseRecOn with
  | nil => rfl
  | append_singleton entries entry ih =>
    rw [Entries.keys, List.map_append, List.nodup_append] at nodup
    have hfresh : entry.1 ∉ Entries.keys entries := fun hm => nodup.2.2 _ hm _ (by simp) rfl
    have hentries : (ofList entries).entries = entries := ih nodup.1
    rw [ofList_concat]
    calc ((ofList entries).insert entry.1 entry.2).entries
        = Entries.set (ofList entries).entries entry.1 entry.2 := rfl
      _ = entries ++ [entry] := by rw [hentries, Entries.set_of_notMem hfresh]

/-- A dictionary is that of its entries. -/
@[simp] theorem ofList_entries (d : Dict α) : ofList d.entries = d :=
  Dict.ext (entries_ofList d.nodup)

/-- The last value of a key counts. -/
theorem get?_ofList (entries : List (String × α)) (key : String) :
    (ofList entries).get? key =
      ((entries.filter fun entry => entry.1 = key).getLast?).map Prod.snd := by
  induction entries using List.reverseRecOn with
  | nil => rfl
  | append_singleton entries entry ih =>
    rw [ofList_concat, get?_insert, ih, List.filter_append]
    by_cases hk : entry.1 = key <;> simp [hk]

/-- No entry is made up. -/
theorem mem_of_mem_ofList {entries : List (String × α)} {entry : String × α}
    (h : entry ∈ (ofList entries).entries) : entry ∈ entries := by
  have hget := ((ofList entries).get?_eq_some_iff ..).mpr h
  rw [get?_ofList] at hget
  obtain ⟨last, hlast, hvalue⟩ := Option.map_eq_some_iff.mp hget
  obtain ⟨hmem, hkey⟩ := List.mem_filter.mp (List.mem_of_getLast? hlast)
  rwa [Prod.ext (of_decide_eq_true hkey) hvalue] at hmem

/-- The values, in order, are what the keys, in order, are mapped to. -/
theorem values_eq_filterMap : d.values = d.keys.filterMap d.get? := by
  -- The look-up stays that of the whole dictionary while the induction shortens the entries.
  have key : ∀ entries : Entries α, (∀ entry ∈ entries, d.get? entry.1 = some entry.2) →
      entries.map Prod.snd = (entries.map Prod.fst).filterMap d.get? := by
    intro entries h
    induction entries with
    | nil => rfl
    | cons entry rest ih =>
      rw [List.map_cons, List.map_cons, List.filterMap_cons_some (h entry (by simp)),
        ih fun entry hm => h entry (List.mem_cons_of_mem _ hm)]
  exact key d.entries fun entry hm => (d.get?_eq_some_iff entry.1 entry.2).mpr hm

/-- A dictionary is told by its keys, in order, and what they are mapped to. -/
theorem ext_get? {d e : Dict α} (hkeys : d.keys = e.keys) (hget : ∀ key, d.get? key = e.get? key) :
    d = e := by
  have hvalues : d.values = e.values := by
    rw [values_eq_filterMap, values_eq_filterMap, hkeys, funext hget]
  have hzip : ∀ c : Dict α, c.entries = c.keys.zip c.values := fun _ => List.zip_of_prod rfl rfl
  exact ext (by rw [hzip d, hzip e, hkeys, hvalues])

theorem nodup_entries : d.entries.Nodup := .of_map Prod.fst d.nodup

/-- The keys of different entries differ. -/
theorem key_ne_of_mem {d : Dict α} {a b : String × α} (ha : a ∈ d.entries) (hb : b ∈ d.entries)
    (hne : a ≠ b) : a.1 ≠ b.1 := by
  intro hkey
  have hget := (d.get?_eq_some_iff ..).mpr ha
  rw [hkey, (d.get?_eq_some_iff ..).mpr hb] at hget
  exact hne (Prod.ext hkey (Option.some.inj hget).symm)

/-- Dictionaries that answer alike have the same entries, in whatever order. -/
theorem perm_entries_iff : d.entries.Perm e.entries ↔ ∀ key, e.get? key = d.get? key := by
  rw [List.perm_ext_iff_of_nodup d.nodup_entries e.nodup_entries]
  constructor
  · intro h key
    refine Option.ext fun value => ?_
    rw [get?_eq_some_iff, get?_eq_some_iff, h]
  · rintro h ⟨key, value⟩
    rw [← get?_eq_some_iff, ← get?_eq_some_iff, h]

theorem size_eq_of_get?_eq {d e : Dict α} (h : ∀ key, e.get? key = d.get? key) :
    e.size = d.size :=
  ((perm_entries_iff d e).mpr h).length_eq.symm

/-! ## Related dictionaries -/

section Related

variable {β : Type u} {R : α → β → Prop}

/-- Related entries under the same keys make dictionaries that answer alike. -/
theorem rel_get?_foldl_insert {as : List (String × α)} {bs : List (String × β)}
    (h : List.Forall₂ (fun a b => a.1 = b.1 ∧ R a.2 b.2) as bs) {d : Dict α} {e : Dict β}
    (hde : ∀ key, Option.Rel R (d.get? key) (e.get? key)) (key : String) :
    Option.Rel R ((as.foldl (fun acc entry => acc.insert entry.1 entry.2) d).get? key)
      ((bs.foldl (fun acc entry => acc.insert entry.1 entry.2) e).get? key) := by
  induction h generalizing d e with
  | nil => exact hde key
  | cons hentry _ ih =>
    refine ih fun other => ?_
    rw [get?_insert, get?_insert, hentry.1]
    split
    · exact .some hentry.2
    · exact hde other

theorem rel_get?_ofList {as : List (String × α)} {bs : List (String × β)}
    (h : List.Forall₂ (fun a b => a.1 = b.1 ∧ R a.2 b.2) as bs) (key : String) :
    Option.Rel R ((ofList as).get? key) ((ofList bs).get? key) :=
  rel_get?_foldl_insert h (fun _ => .none) key

theorem get?_ofList_map (d : Dict α) (f : α → β) (key : String) :
    (ofList (d.entries.map fun entry => (entry.1, f entry.2))).get? key = (d.get? key).map f := by
  have hentries : List.Forall₂ (fun a b => a.1 = b.1 ∧ f a.2 = b.2) d.entries
      (d.entries.map fun entry => (entry.1, f entry.2)) :=
    List.forall₂_map_right_iff.mpr (List.forall₂_same.mpr fun _ _ => ⟨rfl, rfl⟩)
  have hrel := rel_get?_ofList (R := fun a b => f a = b) hentries key
  rw [get?, entries_ofList d.nodup] at hrel
  change Option.Rel (fun a b => f a = b) (d.get? key) _ at hrel
  generalize d.get? key = a, (ofList _).get? key = b at hrel ⊢
  cases hrel with
  | none => rfl
  | some h => rw [← h, Option.map_some]

end Related

end Dict

end DocExpr
