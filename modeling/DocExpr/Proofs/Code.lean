import DocExpr.Placeholder.Context
import DocExpr.Proofs.Dict
import Mathlib.Data.List.Nodup
import Mathlib.Data.List.Perm.Subperm

/-!
# Minted codes

Every code is a token, and no two numbers have the same code.  Counting on therefore leaves any
finite set of taken placeholders behind, and `firstFree` needs no more steps than there are taken
ones.

## Main results

* `Alphabet.isToken_code`, `Alphabet.code_injective`
* `firstFree_free`: the number that the search yields is not taken
* `Context.mint_eq_ok`: what a minted placeholder is, and the context after it
-/

namespace DocExpr

namespace Alphabet

variable (alphabet : Alphabet)

theorem isTokenChar_symbol_at (n : Nat) : isTokenChar (alphabet.symbol n) :=
  alphabet.isTokenChar_symbol _ (List.get_mem ..)

/-- Numbers with one symbol differ by a multiple of the size. -/
theorem mod_eq_of_symbol_eq {n m : Nat} (h : alphabet.symbol n = alphabet.symbol m) :
    n % alphabet.size = m % alphabet.size := by
  have hfin := (List.nodup_iff_injective_get.mp alphabet.nodup) h
  exact congrArg Fin.val hfin

theorem pred_div_le (n : Nat) : (n + 1) / alphabet.size - 1 ≤ n := by
  have hle : (n + 1) / alphabet.size ≤ n + 1 := Nat.div_le_self _ _
  omega

/-- More steps than the number itself change nothing. -/
theorem codeWithin_of_le {fuel n : Nat} (h : n ≤ fuel) :
    alphabet.codeWithin fuel n = alphabet.codeWithin n n := by
  induction n using Nat.strongRecOn generalizing fuel with
  | ind n ih =>
    cases n with
    | zero => cases fuel <;> simp [codeWithin]
    | succ n =>
      obtain ⟨fuel, rfl⟩ : ∃ k, fuel = k + 1 := ⟨fuel - 1, by omega⟩
      -- Both sides go on with a smaller number, for which either amount of fuel suffices.
      have hn := alphabet.pred_div_le n
      rw [codeWithin, codeWithin]
      split
      · rfl
      · rw [ih _ (by omega) (by omega : _ ≤ fuel), ← ih _ (by omega) hn]

/-- The symbols of a code: its last symbol behind those of the quotient, less one. -/
theorem codeWithin_self (n : Nat) :
    alphabet.codeWithin n n =
      if n / alphabet.size = 0 then [alphabet.symbol n]
      else alphabet.codeWithin (n / alphabet.size - 1) (n / alphabet.size - 1) ++
        [alphabet.symbol n] := by
  cases n with
  | zero => simp [codeWithin]
  | succ n => rw [codeWithin, alphabet.codeWithin_of_le (alphabet.pred_div_le n)]

theorem codeWithin_ne_nil (fuel n : Nat) : alphabet.codeWithin fuel n ≠ [] := by
  cases fuel with
  | zero => simp [codeWithin]
  | succ fuel =>
    rw [codeWithin]
    split <;> simp

theorem isTokenChar_codeWithin (fuel n : Nat) :
    ∀ c ∈ alphabet.codeWithin fuel n, isTokenChar c := by
  induction fuel generalizing n with
  | zero => simp [codeWithin, alphabet.isTokenChar_symbol_at]
  | succ fuel ih =>
    rw [codeWithin]
    split
    · simp [alphabet.isTokenChar_symbol_at]
    · intro c hc
      rcases List.mem_append.mp hc with hc | hc
      · exact ih _ c hc
      · rw [List.mem_singleton.mp hc]
        exact alphabet.isTokenChar_symbol_at n

theorem codeWithin_injective {n m : Nat}
    (h : alphabet.codeWithin n n = alphabet.codeWithin m m) : n = m := by
  induction n using Nat.strongRecOn generalizing m with
  | ind n ih =>
    rw [alphabet.codeWithin_self n, alphabet.codeWithin_self m] at h
    have hn := Nat.div_add_mod n alphabet.size
    have hm := Nat.div_add_mod m alphabet.size
    split at h <;> split at h
    · next hn0 hm0 =>
      -- Numbers below the size of the alphabet are told by their symbol.
      have hmod := alphabet.mod_eq_of_symbol_eq (List.singleton_inj.mp h)
      rw [hn0] at hn
      rw [hm0] at hm
      omega
    · -- One symbol stands against at least two.
      have hlen := congrArg List.length h
      have hpos := List.length_pos_iff.mpr
        (alphabet.codeWithin_ne_nil (m / alphabet.size - 1) (m / alphabet.size - 1))
      simp only [List.length_append, List.length_singleton] at hlen
      omega
    · have hlen := congrArg List.length h
      have hpos := List.length_pos_iff.mpr
        (alphabet.codeWithin_ne_nil (n / alphabet.size - 1) (n / alphabet.size - 1))
      simp only [List.length_append, List.length_singleton] at hlen
      omega
    · next hn0 hm0 =>
      -- The last symbols tell the remainders, the symbols before them the quotients.
      obtain ⟨hinit, hlast⟩ := List.append_inj' h rfl
      have hmod := alphabet.mod_eq_of_symbol_eq (List.singleton_inj.mp hlast)
      have hnpos := Nat.pos_of_ne_zero hn0
      have hmpos := Nat.pos_of_ne_zero hm0
      have hlt : n / alphabet.size - 1 < n := by
        have hle : n / alphabet.size ≤ n := Nat.div_le_self _ _
        omega
      have hquot : n / alphabet.size = m / alphabet.size := by
        have hpred := ih _ hlt hinit
        omega
      rw [← hn, ← hm, hquot, hmod]

theorem toList_code (n : Nat) : (alphabet.code n).toList = alphabet.codeWithin n n :=
  String.toList_ofList

/-- A code is a token. -/
theorem isToken_code (n : Nat) : isToken (alphabet.code n) := by
  have hne : alphabet.code n ≠ "" := by
    intro h
    have := alphabet.toList_code n
    rw [h] at this
    exact alphabet.codeWithin_ne_nil n n this.symm
  rw [isToken, toList_code]
  simp only [Bool.and_eq_true, Bool.not_eq_true', List.all_eq_true]
  exact ⟨by simpa using hne, alphabet.isTokenChar_codeWithin n n⟩

theorem code_injective : Function.Injective alphabet.code := fun n m h =>
  alphabet.codeWithin_injective (by rw [← toList_code, ← toList_code, h])

end Alphabet

/-! ## The search for a free code -/

/-- A search that ends on a taken number has met only taken ones. -/
theorem taken_of_taken_firstFree (taken : Nat → Bool) {fuel k : Nat}
    (h : taken (firstFree taken fuel k)) : ∀ i ≤ fuel, taken (k + i) := by
  induction fuel generalizing k with
  | zero =>
    intro i hi
    rwa [Nat.le_zero.mp hi]
  | succ fuel ih =>
    rw [firstFree] at h
    split at h
    · next hk =>
      intro i hi
      cases i with
      | zero => exact hk
      | succ i =>
        have hnext := ih h i (by omega)
        rwa [show k + (i + 1) = k + 1 + i by omega]
    · next hk => exact absurd h hk

/-- **The search ends on a free number**: the taken placeholders are too few for all the numbers
that it looks at. -/
theorem firstFree_free {α : Type} (taken : Dict α) (placeholder : Nat → String)
    (injective : Function.Injective placeholder) (k : Nat) :
    placeholder (firstFree (fun k => taken.contains (placeholder k)) taken.size k) ∉
      taken.keys := by
  intro hmem
  -- Otherwise one placeholder more than there are taken ones would be taken, all of them distinct.
  have hall := taken_of_taken_firstFree (fun k => taken.contains (placeholder k))
    ((taken.contains_iff _).mpr hmem)
  have hnodup : ((List.range (taken.size + 1)).map fun i => placeholder (k + i)).Nodup := by
    refine List.Nodup.map (fun i j hij => ?_) List.nodup_range
    have := injective hij
    omega
  have hsub : ((List.range (taken.size + 1)).map fun i => placeholder (k + i)) ⊆ taken.keys := by
    intro p hp
    obtain ⟨i, hi, rfl⟩ := List.mem_map.mp hp
    exact (taken.contains_iff _).mp (hall i (by simpa [Nat.lt_succ_iff] using hi))
  have hlen := (hnodup.subperm hsub).length_le
  simp only [List.length_map, List.length_range, Dict.keys, Entries.keys, Dict.size] at hlen
  omega

/-- The same token gives the same placeholder only. -/
theorem namePlaceholder_injective : Function.Injective namePlaceholder := fun a b h => by
  have := congrArg String.toList h
  simpa [namePlaceholder, String.toList_append, String.toList_inj] using this

theorem valuePlaceholder_injective : Function.Injective valuePlaceholder := fun a b h => by
  have := congrArg String.toList h
  simpa [valuePlaceholder, String.toList_append, String.toList_inj] using this

/-- A minted placeholder has a token and is not taken; nothing but the position changes. -/
theorem Context.mint_eq_ok {α : Type} {ctx ctx' : Context} {placeholder : String → String}
    (injective : Function.Injective placeholder) {taken : Dict α} {p : String}
    (h : ctx.mint placeholder taken = .ok (p, ctx')) :
    (∃ token, isToken token ∧ p = placeholder token) ∧ p ∉ taken.keys ∧
      ∃ position, ctx' = { ctx with position } := by
  rw [mint] at h
  split at h
  · cases h
  · next alphabet _ =>
    cases h
    exact ⟨⟨_, alphabet.isToken_code _, rfl⟩,
      firstFree_free taken (fun k => placeholder (alphabet.code k))
        (injective.comp alphabet.code_injective) ctx.position, _, rfl⟩

end DocExpr
