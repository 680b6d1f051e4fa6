/-!
# Dictionaries

A dictionary maps strings to values and keeps its entries in the order in which their keys were
first inserted.  Placeholder maps, items and expression maps are dictionaries; so is the list of
the statements that survive in an update, where the order is what is printed.

## Main definitions

* `Entries.get?`, `Entries.set`: look-up and insertion on a bare list of entries, which is also how
  an attribute value stores its map.
* `Dict`: a list of entries whose keys are distinct.
* `Dict.insert`, `Dict.merge`, `Dict.ofList`: a later entry takes the place of an earlier one.

## Main results

* `Entries.get?_set`: insertion changes the look-up of its own key and of no other.
* `Entries.keys_set`: insertion keeps the keys and appends a new one at the end.
-/

namespace DocExpr

universe u

variable {α : Type u}

/-- Entries in order; the first one of a key counts. -/
abbrev Entries (α : Type u) := List (String × α)

namespace Entries

/-- The keys, in order. -/
def keys (entries : Entries α) : List String := entries.map Prod.fst

/-- The value of a key. -/
def get? : Entries α → String → Option α
  | [], _ => none
  | (k, v) :: rest, key => if k = key then some v else get? rest key

/-- Gives a key a value: in the key's place if it has one, else at the end. -/
def set : Entries α → String → α → Entries α
  | [], key, value => [(key, value)]
  | (k, v) :: rest, key, value =>
    if k = key then (k, value) :: rest else (k, v) :: set rest key value

theorem get?_set (entries : Entries α) (key : String) (value : α) (other : String) :
    (entries.set key value).get? other = if key = other then some value else entries.get? other := by
  induction entries with
  | nil => simp [set, get?]
  | cons entry rest ih =>
    obtain ⟨k, v⟩ := entry
    by_cases hk : k = key
    · subst hk
      by_cases ho : k = other <;> simp [set, get?, ho]
    · by_cases ho : k = other
      · subst ho
        simp [set, get?, hk, Ne.symm hk]
      · simp [set, get?, hk, ho, ih]

theorem keys_set (entries : Entries α) (key : String) (value : α) :
    keys (entries.set key value) =
      if key ∈ keys entries then keys entries else keys entries ++ [key] := by
  induction entries with
  | nil => simp [set, keys]
  | cons entry rest ih =>
    obtain ⟨k, v⟩ := entry
    simp only [keys] at ih
    by_cases hk : k = key
    · simp [set, keys, hk]
    · by_cases hm : key ∈ rest.map Prod.fst <;> simp [set, keys, hk, ih, hm, Ne.symm hk]

theorem nodup_keys_set {entries : Entries α} (h : (keys entries).Nodup) (key : String) (value : α) :
    (keys (entries.set key value)).Nodup := by
  rw [keys_set]
  split
  · exact h
  · next hk =>
    refine List.nodup_append.mpr ⟨h, by simp, fun a ha b hb => ?_⟩
    rw [List.mem_singleton.mp hb]
    exact fun hab => hk (hab ▸ ha)

/-- A key has a value exactly when it is among the keys. -/
theorem isSome_get?_iff (entries : Entries α) (key : String) :
    (entries.get? key).isSome ↔ key ∈ keys entries := by
  induction entries with
  | nil => simp [get?, keys]
  | cons entry rest ih =>
    obtain ⟨k, v⟩ := entry
    simp only [keys] at ih
    by_cases hk : k = key
    · simp [get?, keys, hk]
    · simp [get?, keys, hk, ih, Ne.symm hk]

end Entries

/-- Entries with distinct keys, in the order of first insertion. -/
structure Dict (α : Type u) where
  entries : Entries α
  nodup : entries.keys.Nodup := by decide

namespace Dict

@[ext] theorem ext {d e : Dict α} (h : d.entries = e.entries) : d = e := by
  cases d; cases e; simp_all

instance [DecidableEq α] : DecidableEq (Dict α) := fun d e =>
  decidable_of_iff (d.entries = e.entries) ⟨ext, congrArg entries⟩

instance [Repr α] : Repr (Dict α) := ⟨fun d n => reprPrec d.entries n⟩

/-- No entry. -/
def empty : Dict α := ⟨[], List.nodup_nil⟩

instance : EmptyCollection (Dict α) := ⟨empty⟩

instance : Inhabited (Dict α) := ⟨empty⟩

/-- The keys, in order. -/
def keys (d : Dict α) : List String := d.entries.keys

/-- The values, in the order of their keys. -/
def values (d : Dict α) : List α := d.entries.map Prod.snd

/-- How many entries there are. -/
def size (d : Dict α) : Nat := d.entries.length

def isEmpty (d : Dict α) : Bool := d.entries.isEmpty

/-- The value of a key. -/
def get? (d : Dict α) (key : String) : Option α := d.entries.get? key

/-- Whether a key has a value. -/
def contains (d : Dict α) (key : String) : Bool := (d.get? key).isSome

/-- Gives a key a value, in the key's place if it has one and at the end otherwise. -/
def insert (d : Dict α) (key : String) (value : α) : Dict α :=
  ⟨d.entries.set key value, Entries.nodup_keys_set d.nodup key value⟩

/-- Inserts every entry of the second dictionary into the first. -/
def merge (d e : Dict α) : Dict α := e.entries.foldl (fun acc entry => acc.insert entry.1 entry.2) d

/-- Inserts the entries of a list one by one, so the last value of a key counts. -/
def ofList (entries : List (String × α)) : Dict α :=
  entries.foldl (fun acc entry => acc.insert entry.1 entry.2) ∅

/-- One entry. -/
def singleton (key : String) (value : α) : Dict α := ⟨[(key, value)], by simp [Entries.keys]⟩

theorem get?_insert (d : Dict α) (key : String) (value : α) (other : String) :
    (d.insert key value).get? other = if key = other then some value else d.get? other :=
  Entries.get?_set d.entries key value other

theorem keys_insert (d : Dict α) (key : String) (value : α) :
    (d.insert key value).keys = if key ∈ d.keys then d.keys else d.keys ++ [key] :=
  Entries.keys_set d.entries key value

theorem contains_iff (d : Dict α) (key : String) : d.contains key = true ↔ key ∈ d.keys :=
  Entries.isSome_get?_iff d.entries key

@[simp] theorem get?_empty (key : String) : (∅ : Dict α).get? key = none := rfl

end Dict

end DocExpr
