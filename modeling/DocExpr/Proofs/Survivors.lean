import DocExpr.Proofs.Dict
import DocExpr.Proofs.Leaves
import Mathlib.Data.List.Nodup

/-!
# Survivors

Of the statements with one target only the last counts, and it stands where the first one stood.
`lastOfEach` says so for any list with keys, without a dictionary that is overwritten on the way:
the keys in the order in which they first occur, and for each the last entry that has it.

## Main definitions

* `lastOfEach key l`: the last entry of each key, in the order of the first ones
* `Update.surviving`: the statements of an update that count
* `lastPositions`, `survivorPositions`: where the entries stand that count

## Main results

* `survivors_eq`: the survivors are the last statements of their targets
* `lastOfEach_map`: what the entries are otherwise does not matter
* `exists_positions`: an entry is left out exactly when a later one has its key
-/

namespace DocExpr

variable {α β : Type}

/-- The last entry of each key, in the order of the first ones. -/
def lastOfEach (key : α → String) (l : List α) : List α :=
  (l.map key).eraseDups.filterMap fun k => (l.filter fun a => key a = k).getLast?

theorem mem_lastOfEach (key : α → String) (l : List α) (a : α) :
    a ∈ lastOfEach key l ↔ (l.filter fun b => key b = key a).getLast? = some a := by
  have hkey : ∀ {k}, (l.filter fun b => key b = k).getLast? = some a → a ∈ l ∧ key a = k := by
    intro k hk
    simpa using List.mem_of_getLast? hk
  rw [lastOfEach, List.mem_filterMap]
  constructor
  · rintro ⟨k, -, hk⟩
    obtain ⟨-, rfl⟩ := hkey hk
    exact hk
  · intro h
    exact ⟨key a, List.mem_eraseDups.mpr (List.mem_map_of_mem (hkey h).1), h⟩

theorem mem_of_mem_lastOfEach {key : α → String} {l : List α} {a : α} (h : a ∈ lastOfEach key l) :
    a ∈ l :=
  List.mem_of_mem_filter (List.mem_of_getLast? ((mem_lastOfEach key l a).mp h))

theorem lastOfEach_eq_nil_iff (key : α → String) (l : List α) : lastOfEach key l = [] ↔ l = [] := by
  constructor
  · intro h
    cases l with
    | nil => rfl
    | cons a rest =>
      -- The last entry with the key of the first one is there.
      have hne : (a :: rest).filter (fun b => key b = key a) ≠ [] := by simp
      obtain ⟨last, hlast⟩ := Option.isSome_iff_exists.mp (List.getLast?_isSome.mpr hne)
      have hkey : key last = key a := by
        simpa using List.mem_filter.mp (List.mem_of_getLast? hlast) |>.2
      have hmem : last ∈ lastOfEach key (a :: rest) :=
        (mem_lastOfEach ..).mpr (by rw [hkey]; exact hlast)
      rw [h] at hmem
      cases hmem
  · rintro rfl
    rfl

theorem nodup_eraseDups (keys : List String) : keys.eraseDups.Nodup := by
  -- A dictionary with these keys has each of them once.
  have hnodup := (Dict.ofList (keys.map fun key => (key, ()))).nodup
  have hkeys := Dict.keys_ofList (keys.map fun key => (key, ()))
  rw [List.map_map] at hkeys
  rwa [← Dict.keys, hkeys, show Prod.fst ∘ (fun key : String => (key, ())) = id from rfl,
    List.map_id] at hnodup

theorem nodup_lastOfEach (key : α → String) (l : List α) : (lastOfEach key l).Nodup := by
  refine List.Nodup.filterMap (fun k k' a hk hk' => ?_) (nodup_eraseDups _)
  have hkey : ∀ {k}, a ∈ (l.filter fun b => key b = k).getLast? → key a = k := by
    intro k hk
    simpa using (List.mem_filter.mp (List.mem_of_getLast? hk)).2
  rw [← hkey hk, ← hkey hk']

/-- Entries may be replaced by others with the same keys. -/
theorem lastOfEach_map {key : α → String} {key' : β → String} {f : α → β} {l : List α}
    (h : ∀ a ∈ l, key' (f a) = key a) :
    lastOfEach key' (l.map f) = (lastOfEach key l).map f := by
  have hkeys : (l.map f).map key' = l.map key := by
    rw [List.map_map]
    exact List.map_congr_left h
  have hfilter : ∀ k, (l.map f).filter (fun b => key' b = k) =
      (l.filter fun a => key a = k).map f := by
    intro k
    rw [List.filter_map]
    congr 1
    exact List.filter_congr fun a ha => by simp [h a ha]
  rw [lastOfEach, lastOfEach, hkeys, List.map_filterMap]
  congr 1
  funext k
  rw [hfilter, List.getLast?_map]

/-- **The survivors are the last statements of their targets**, in the order of the first ones. -/
theorem survivors_eq (statements : List ResolvedStatement) :
    survivors statements = lastOfEach (fun statement => statement.target.literal) statements := by
  rw [survivors, Dict.values_eq_filterMap, Dict.keys_ofList, lastOfEach, List.map_map]
  congr 1
  funext literal
  rw [Dict.get?_ofList, List.filter_map, List.getLast?_map, Option.map_map]
  exact Option.map_id'

theorem mem_of_mem_survivors {statements : List ResolvedStatement} {statement : ResolvedStatement}
    (h : statement ∈ survivors statements) : statement ∈ statements := by
  rw [survivors_eq] at h
  exact mem_of_mem_lastOfEach h

/-- Statements on different targets all survive. -/
theorem survivors_eq_self {statements : List ResolvedStatement}
    (h : (statements.map fun statement => statement.target.literal).Nodup) :
    survivors statements = statements := by
  have hnodup : (Entries.keys (statements.map fun statement =>
      (statement.target.literal, statement))).Nodup := by
    rwa [Entries.keys, List.map_map]
  rw [survivors, Dict.values, Dict.entries_ofList hnodup, List.map_map]
  exact List.map_id statements

/-- The statements of an update that count: of those with one target, as it is written, the last. -/
def Update.surviving (update : Update) : Update :=
  lastOfEach (fun statement => statement.target.display) update

/-- Whether a statement survives is seen before it is resolved. -/
theorem map_source_survivors {statements : List ResolvedStatement}
    (h : ∀ statement ∈ statements,
      statement.target.path.literal = .ok statement.target.literal) :
    (survivors statements).map ResolvedStatement.source =
      Update.surviving (statements.map ResolvedStatement.source) := by
  rw [survivors_eq, Update.surviving, lastOfEach_map]
  intro statement hs
  rw [Path.display, ResolvedStatement.source, h statement hs]

/-! ## Positions -/

/-- The last entry of a list in ascending order is the greatest. -/
theorem le_of_getLast? {measure : α → Nat} {l : List α}
    (h : l.Pairwise fun a b => measure a < measure b) {last : α} (hlast : l.getLast? = some last) :
    ∀ a ∈ l, measure a ≤ measure last := by
  obtain ⟨before, rfl⟩ := List.getLast?_eq_some_iff.mp hlast
  intro a ha
  rcases List.mem_append.mp ha with ha | ha
  · exact Nat.le_of_lt ((List.pairwise_append.mp h).2.2 a ha last (by simp))
  · exact Nat.le_of_eq (congrArg measure (List.mem_singleton.mp ha))

/-- Among entries with their positions, the last of a key is the one without a later one. -/
theorem mem_lastOfEach_zipIdx (key : α → String) (l : List α) (a : α) (i : Nat) :
    (a, i) ∈ lastOfEach (fun entry => key entry.1) l.zipIdx ↔
      l[i]? = some a ∧ ¬ ∃ j b, i < j ∧ l[j]? = some b ∧ key b = key a := by
  -- The positions ascend, also among the entries with one key.
  have hpairwise : l.zipIdx.Pairwise fun a b => a.2 < b.2 := by
    rw [← List.pairwise_map, List.zipIdx_map_snd]
    exact List.pairwise_lt_range'
  have hmem : ∀ b j, (b, j) ∈ l.zipIdx.filter (fun entry => key entry.1 = key a) ↔
      l[j]? = some b ∧ key b = key a := by
    intro b j
    rw [List.mem_filter, List.mk_mem_zipIdx_iff_getElem?, decide_eq_true_eq]
  rw [mem_lastOfEach]
  constructor
  · intro hlast
    refine ⟨((hmem a i).mp (List.mem_of_getLast? hlast)).1, ?_⟩
    rintro ⟨j, b, hlt, hb⟩
    have hle : j ≤ i := le_of_getLast? (hpairwise.filter _) hlast _ ((hmem b j).mpr hb)
    omega
  · rintro ⟨ha, hno⟩
    have hself := (hmem a i).mpr ⟨ha, rfl⟩
    obtain ⟨⟨b, j⟩, hlast⟩ := Option.isSome_iff_exists.mp
      (List.getLast?_isSome.mpr (List.ne_nil_of_mem hself))
    obtain ⟨hb, hkey⟩ := (hmem b j).mp (List.mem_of_getLast? hlast)
    have hle : i ≤ j := le_of_getLast? (hpairwise.filter _) hlast _ hself
    -- Nothing later has the key, so the last entry is the one at hand.
    rcases Nat.lt_or_eq_of_le hle with hlt | rfl
    · exact absurd ⟨j, b, hlt, hb, hkey⟩ hno
    · obtain rfl := Option.some.inj (ha.symm.trans hb)
      exact hlast

/-- The positions of the entries that count, in the order in which these are listed. -/
def lastPositions (key : α → String) (l : List α) : List Nat :=
  (lastOfEach (fun entry => key entry.1) l.zipIdx).map Prod.snd

theorem getElem?_of_mem_lastOfEach_zipIdx {key : α → String} {l : List α} {entry : α × Nat}
    (h : entry ∈ lastOfEach (fun entry => key entry.1) l.zipIdx) : l[entry.2]? = some entry.1 :=
  List.mem_zipIdx_iff_getElem?.mp (mem_of_mem_lastOfEach h)

theorem nodup_lastPositions (key : α → String) (l : List α) : (lastPositions key l).Nodup := by
  refine List.Nodup.map_on ?_ (nodup_lastOfEach _ _)
  intro entry hmem other hmem' hindex
  have hsame := getElem?_of_mem_lastOfEach_zipIdx hmem'
  rw [← hindex, getElem?_of_mem_lastOfEach_zipIdx hmem] at hsame
  exact Prod.ext (Option.some.inj hsame) hindex

/-- The entries that count are the ones at these positions. -/
theorem lastOfEach_eq_filterMap (key : α → String) (l : List α) :
    lastOfEach key l = (lastPositions key l).filterMap (l[·]?) := by
  have hmap : lastOfEach key (l.zipIdx.map Prod.fst) =
      (lastOfEach (fun entry => key entry.1) l.zipIdx).map Prod.fst :=
    lastOfEach_map fun _ _ => rfl
  rw [List.zipIdx_map_fst] at hmap
  rw [hmap, lastPositions, List.filterMap_map, ← List.filterMap_eq_map']
  exact (List.filterMap_congr fun entry => getElem?_of_mem_lastOfEach_zipIdx).symm

/-- A position is left out exactly when a later entry has the key. -/
theorem mem_lastPositions_iff {key : α → String} {l : List α} {a : α} {i : Nat}
    (ha : l[i]? = some a) :
    i ∈ lastPositions key l ↔ ¬ ∃ j b, i < j ∧ l[j]? = some b ∧ key b = key a := by
  constructor
  · intro hi
    obtain ⟨⟨b, j⟩, hlast, rfl⟩ := List.mem_map.mp hi
    obtain rfl := Option.some.inj (ha.symm.trans (getElem?_of_mem_lastOfEach_zipIdx hlast))
    exact ((mem_lastOfEach_zipIdx key l a j).mp hlast).2
  · intro hno
    exact List.mem_map.mpr ⟨(a, i), (mem_lastOfEach_zipIdx key l a i).mpr ⟨ha, hno⟩, rfl⟩

/-- Replacing the entries by others with the same keys leaves the positions as they are. -/
theorem lastPositions_map {key : α → String} {key' : β → String} {f : α → β} {l : List α}
    (h : ∀ a ∈ l, key' (f a) = key a) : lastPositions key' (l.map f) = lastPositions key l := by
  have hmap : lastOfEach (fun entry => key' entry.1) (l.zipIdx.map (Prod.map f id)) =
      (lastOfEach (fun entry => key entry.1) l.zipIdx).map (Prod.map f id) := by
    apply lastOfEach_map
    intro entry hmem
    exact h entry.1 (List.mem_of_getElem? (List.mem_zipIdx_iff_getElem?.mp hmem))
  rw [lastPositions, List.zipIdx_map, hmap, List.map_map]
  rfl

/-- **An entry is left out exactly when a later one has its key.** -/
theorem exists_positions (key : α → String) (l : List α) :
    ∃ kept : List Nat, kept.Nodup ∧ lastOfEach key l = kept.filterMap (l[·]?) ∧
      ∀ i a, l[i]? = some a →
        (i ∈ kept ↔ ¬ ∃ j b, i < j ∧ l[j]? = some b ∧ key b = key a) :=
  ⟨lastPositions key l, nodup_lastPositions key l, lastOfEach_eq_filterMap key l,
    fun _ _ => mem_lastPositions_iff⟩

/-- The positions of the statements that are printed. -/
def survivorPositions (statements : List ResolvedStatement) : List Nat :=
  lastPositions (fun statement => statement.target.literal) statements

theorem survivors_eq_filterMap (statements : List ResolvedStatement) :
    survivors statements = (survivorPositions statements).filterMap (statements[·]?) := by
  rw [survivors_eq, survivorPositions, lastOfEach_eq_filterMap]

end DocExpr
