import DocExpr.Attribute.Value
import DocExpr.Proofs.Dict
import Mathlib.Data.List.Perm.Subperm
import Mathlib.Data.List.Forall2

/-!
# Values up to the order of map entries

A map has no order, so two values that differ in the order of the entries of their maps are one
value to a store.  On well-formed values this is an equivalence, and what is well formed stays so
when it is written in another order.

Values nest in lists and in the entries of maps; `AttributeValue.induct` is the induction over them
that speaks of the members of both.

## Main results

* `AttributeValue.same_iff_eq`, `AttributeValue.same_list_iff`, `AttributeValue.same_map_iff`: what
  equals a value without members, a list and a map
* `AttributeValue.WellFormed.of_same`: another order of the entries keeps the names distinct
* `AttributeValue.same_refl`, `AttributeValue.same_symm`, `AttributeValue.same_trans`
-/

namespace DocExpr

/-- Every member of the second list is related to one of the first. -/
theorem exists_mem_of_forall₂ {α β : Type} {R : α → β → Prop} {as : List α} {bs : List β}
    (h : List.Forall₂ R as bs) : ∀ b ∈ bs, ∃ a ∈ as, R a b := by
  induction h with
  | nil => simp
  | cons hab _ ih =>
    refine List.forall_mem_cons.mpr ⟨⟨_, List.mem_cons_self, hab⟩, fun b hb => ?_⟩
    obtain ⟨a, ha, hR⟩ := ih b hb
    exact ⟨a, List.mem_cons_of_mem _ ha, hR⟩

namespace AttributeValue

/-- Induction over values, where lists and maps know their property of every member. -/
@[elab_as_elim, induction_eliminator]
theorem induct {motive : AttributeValue → Prop}
    (string : ∀ text, motive (.string text))
    (number : ∀ numeral, motive (.number numeral))
    (binary : ∀ bytes, motive (.binary bytes))
    (stringSet : ∀ members, motive (.stringSet members))
    (numberSet : ∀ members, motive (.numberSet members))
    (binarySet : ∀ members, motive (.binarySet members))
    (bool : ∀ flag, motive (.bool flag))
    (null : ∀ flag, motive (.null flag))
    (list : ∀ items, (∀ item ∈ items, motive item) → motive (.list items))
    (map : ∀ entries, (∀ entry ∈ entries, motive entry.2) → motive (.map entries))
    (value : AttributeValue) : motive value :=
  @AttributeValue.rec motive (fun items => ∀ item ∈ items, motive item)
    (fun entries => ∀ entry ∈ entries, motive entry.2) (fun entry => motive entry.2)
    string number binary stringSet numberSet binarySet bool null list map
    (by simp) (fun _ _ hitem hitems => List.forall_mem_cons.mpr ⟨hitem, hitems⟩)
    (by simp) (fun _ _ hentry hentries => List.forall_mem_cons.mpr ⟨hentry, hentries⟩)
    (fun _ _ h => h) value

/-! ## Member by member -/

theorem wellFormedItems_iff {items : List AttributeValue} :
    WellFormedItems items ↔ ∀ item ∈ items, item.WellFormed := by
  induction items with
  | nil => simp [WellFormedItems]
  | cons item rest ih => rw [WellFormedItems, ih, List.forall_mem_cons]

theorem wellFormedEntries_iff {entries : Entries AttributeValue} :
    WellFormedEntries entries ↔ ∀ entry ∈ entries, entry.2.WellFormed := by
  induction entries with
  | nil => simp [WellFormedEntries]
  | cons entry rest ih => rw [WellFormedEntries, ih, List.forall_mem_cons]

theorem sameItems_iff {as bs : List AttributeValue} :
    sameItems as bs = true ↔ List.Forall₂ (fun a b => a.same b = true) as bs := by
  induction as generalizing bs with
  | nil =>
    cases bs with
    | nil => exact iff_of_true rfl .nil
    | cons b bs => exact iff_of_false Bool.false_ne_true nofun
  | cons a as ih =>
    cases bs with
    | nil => exact iff_of_false Bool.false_ne_true nofun
    | cons b bs =>
      have hcons : sameItems (a :: as) (b :: bs) = (a.same b && sameItems as bs) := rfl
      rw [hcons, Bool.and_eq_true, ih, List.forall₂_cons]

theorem sameEntries_iff {as bs : Entries AttributeValue} :
    sameEntries as bs = true ↔
      ∀ entry ∈ as, ∃ other, bs.get? entry.1 = some other ∧ entry.2.same other = true := by
  induction as with
  | nil => exact iff_of_true rfl nofun
  | cons entry rest ih =>
    obtain ⟨name, value⟩ := entry
    have hcons : sameEntries ((name, value) :: rest) bs =
        ((Entries.get? bs name).any value.same && sameEntries rest bs) := by
      refine congrArg (· && sameEntries rest bs) ?_
      cases Entries.get? bs name <;> rfl
    rw [hcons, Bool.and_eq_true, ih, List.forall_mem_cons, Option.any_eq_true]

variable {a b c : AttributeValue}

/-- What equals a list is a list of equal items. -/
theorem same_list_iff {as : List AttributeValue} :
    (AttributeValue.list as).same b = true ↔
      ∃ bs, b = .list bs ∧ List.Forall₂ (fun a b => a.same b = true) as bs := by
  constructor
  · intro h
    cases b with
    | list bs => exact ⟨bs, rfl, sameItems_iff.mp h⟩
    | _ => cases h
  · rintro ⟨bs, rfl, hitems⟩
    exact sameItems_iff.mpr hitems

/-- What equals a map is a map of as many entries, among which every entry of the first is found. -/
theorem same_map_iff {as : Entries AttributeValue} :
    (AttributeValue.map as).same b = true ↔
      ∃ bs : Entries AttributeValue, b = .map bs ∧ as.length = bs.length ∧
        ∀ entry ∈ as, ∃ other, bs.get? entry.1 = some other ∧ entry.2.same other = true := by
  have hmap : ∀ bs : Entries AttributeValue, (AttributeValue.map as).same (.map bs) = true ↔
      as.length = bs.length ∧ sameEntries as bs = true := by
    intro bs
    rw [← decide_eq_true_iff (p := as.length = bs.length), ← Bool.and_eq_true]
    rfl
  constructor
  · intro h
    cases b with
    | map bs =>
      obtain ⟨hlength, hentries⟩ := (hmap bs).mp h
      exact ⟨bs, rfl, hlength, sameEntries_iff.mp hentries⟩
    | _ => cases h
  · rintro ⟨bs, rfl, hlength, hentries⟩
    exact (hmap bs).mpr ⟨hlength, sameEntries_iff.mpr hentries⟩

/-- Whether a value has members that are values. -/
def isNested : AttributeValue → Bool
  | list _ | map _ => true
  | _ => false

/-- What has no members has no order, so it equals itself alone. -/
theorem same_iff_eq (ha : a.isNested = false) : a.same b = true ↔ a = b := by
  constructor
  · intro h
    cases a with
    | list _ | map _ => cases ha
    | _ => cases b <;> first | cases h | exact congrArg _ (of_decide_eq_true h)
  · rintro rfl
    cases a with
    | list _ | map _ => cases ha
    | _ => exact decide_eq_true rfl

theorem isNull_of_same (h : a.same b = true) : a.isNull = b.isNull := by
  cases a with
  | list items =>
    obtain ⟨_, rfl, -⟩ := same_list_iff.mp h
    rfl
  | map entries =>
    obtain ⟨_, rfl, -⟩ := same_map_iff.mp h
    rfl
  | _ => rw [(same_iff_eq rfl).mp h]

/-! ## The entries of two equal maps -/

section Map

variable {as bs : Entries AttributeValue}

/-- Equal maps have the same names, since as many names that are all found are all there are. -/
theorem keys_perm_of_same (has : as.keys.Nodup)
    (h : (AttributeValue.map as).same (.map bs) = true) : as.keys.Perm bs.keys := by
  obtain ⟨_, ⟨⟩, hlength, hfound⟩ := same_map_iff.mp h
  have hsubset : as.keys ⊆ bs.keys := by
    intro name hname
    obtain ⟨entry, hentry, rfl⟩ := List.mem_map.mp hname
    obtain ⟨other, hother, -⟩ := hfound entry hentry
    exact List.mem_map.mpr ⟨_, Entries.mem_of_get? hother, rfl⟩
  refine (has.subperm hsubset).perm_of_length_le ?_
  simp [Entries.keys, hlength]

/-- Every entry of the second map is one of the first, written anew. -/
theorem exists_mem_of_same (has : as.keys.Nodup)
    (h : (AttributeValue.map as).same (.map bs) = true) {entry : String × AttributeValue}
    (hentry : entry ∈ bs) : ∃ value, (entry.1, value) ∈ as ∧ value.same entry.2 = true := by
  have hperm := keys_perm_of_same has h
  have hname : entry.1 ∈ as.keys := hperm.mem_iff.mpr (List.mem_map.mpr ⟨_, hentry, rfl⟩)
  obtain ⟨⟨name, value⟩, hvalue, hkey⟩ := List.mem_map.mp hname
  obtain rfl : name = entry.1 := hkey
  obtain ⟨_, ⟨⟩, -, hfound⟩ := same_map_iff.mp h
  obtain ⟨other, hother, hsame⟩ := hfound _ hvalue
  rw [Entries.get?_of_mem (hperm.nodup_iff.mp has) hentry] at hother
  exact ⟨value, hvalue, Option.some.inj hother ▸ hsame⟩

end Map

/-! ## An equivalence -/

/-- Another order of the entries of maps keeps their names distinct. -/
theorem WellFormed.of_same (ha : a.WellFormed) (h : a.same b = true) : b.WellFormed := by
  induction a generalizing b with
  | list as ih =>
    obtain ⟨bs, rfl, hitems⟩ := same_list_iff.mp h
    rw [WellFormed, wellFormedItems_iff] at ha ⊢
    clear h
    induction hitems with
    | nil => simp
    | cons hitem _ ihitems =>
      rw [List.forall_mem_cons] at ih ha
      exact List.forall_mem_cons.mpr ⟨ih.1 ha.1 hitem, ihitems ih.2 ha.2⟩
  | map as ih =>
    obtain ⟨bs, rfl, -⟩ := same_map_iff.mp h
    rw [WellFormed, wellFormedEntries_iff] at ha ⊢
    refine ⟨(keys_perm_of_same ha.1 h).nodup_iff.mp ha.1, fun entry hentry => ?_⟩
    obtain ⟨value, hvalue, hsame⟩ := exists_mem_of_same ha.1 h hentry
    exact ih _ hvalue (ha.2 _ hvalue) hsame
  | _ => exact (same_iff_eq rfl).mp h ▸ ha

theorem same_refl (ha : a.WellFormed) : a.same a = true := by
  induction a with
  | list as ih =>
    rw [WellFormed, wellFormedItems_iff] at ha
    exact same_list_iff.mpr ⟨as, rfl,
      List.forall₂_same.mpr fun item hitem => ih item hitem (ha item hitem)⟩
  | map as ih =>
    rw [WellFormed, wellFormedEntries_iff] at ha
    exact same_map_iff.mpr ⟨as, rfl, rfl, fun entry hentry =>
      ⟨entry.2, Entries.get?_of_mem ha.1 hentry, ih entry hentry (ha.2 entry hentry)⟩⟩
  | _ => exact (same_iff_eq rfl).mpr rfl

theorem same_symm (ha : a.WellFormed) (h : a.same b = true) : b.same a = true := by
  induction a generalizing b with
  | list as ih =>
    obtain ⟨bs, rfl, hitems⟩ := same_list_iff.mp h
    rw [WellFormed, wellFormedItems_iff] at ha
    refine same_list_iff.mpr ⟨as, rfl, List.Forall₂.flip ?_⟩
    have hsymm : ∀ item ∈ as, ∀ other, item.same other = true → other.same item = true :=
      fun item hitem other => ih item hitem (ha item hitem)
    exact ((List.forall₂_and_left as bs).mpr ⟨hsymm, hitems⟩).imp fun _ _ h => h.1 _ h.2
  | map as ih =>
    obtain ⟨bs, rfl, hlength, -⟩ := same_map_iff.mp h
    rw [WellFormed, wellFormedEntries_iff] at ha
    refine same_map_iff.mpr ⟨as, rfl, hlength.symm, fun entry hentry => ?_⟩
    obtain ⟨value, hvalue, hsame⟩ := exists_mem_of_same ha.1 h hentry
    exact ⟨value, Entries.get?_of_mem ha.1 hvalue, ih _ hvalue (ha.2 _ hvalue) hsame⟩
  | _ =>
    obtain rfl := (same_iff_eq rfl).mp h
    exact h

theorem same_trans (hab : a.same b = true) (hbc : b.same c = true) : a.same c = true := by
  induction a generalizing b c with
  | list as ih =>
    obtain ⟨bs, rfl, habs⟩ := same_list_iff.mp hab
    obtain ⟨cs, rfl, hbcs⟩ := same_list_iff.mp hbc
    refine same_list_iff.mpr ⟨cs, rfl, ?_⟩
    clear hab hbc
    induction habs generalizing cs with
    | nil => exact hbcs
    | cons hitem _ ihitems =>
      rw [List.forall_mem_cons] at ih
      cases hbcs with
      | cons hitem' hbcs => exact .cons (ih.1 hitem hitem') (ihitems ih.2 _ hbcs)
  | map as ih =>
    obtain ⟨bs, rfl, hlength, hfound⟩ := same_map_iff.mp hab
    obtain ⟨cs, rfl, hlength', hfound'⟩ := same_map_iff.mp hbc
    refine same_map_iff.mpr ⟨cs, rfl, hlength.trans hlength', fun entry hentry => ?_⟩
    obtain ⟨other, hother, hsame⟩ := hfound entry hentry
    obtain ⟨last, hlast, hsame'⟩ := hfound' _ (Entries.mem_of_get? hother)
    exact ⟨last, hlast, ih entry hentry hsame hsame'⟩
  | _ =>
    obtain rfl := (same_iff_eq rfl).mp hab
    exact hbc

end AttributeValue

end DocExpr
