import DocExpr.Proofs.NumberText
import Mathlib.Data.Int.Log
import Mathlib.Data.Rat.Floor

/-!
# What numerals are read as

A numeral that a float format reads stands for a number of the format: rounding leaves a significand
that fits, since a ratio below the next power of two rounds to that power at most, and then the
power is written with one bit less and the next exponent.  What is beyond the largest exponent is
infinite, and so are the words for it; no such number is one that a store takes.

Stores read all numerals in the 64-bit format.  An integer of any type is finite there, and so is
every numeral that is finite in the 32-bit format.

## Main results

* `floorLog_bounds`: the powers of the base on both sides of a ratio
* `FloatFormat.read?_holds`: what is read is a number of the format
* `FloatFormat.isFiniteNumeral_of_read?`: what is finite in one format, a store can take
* `FloatFormat.isFiniteNumeral_text`, `isFiniteNumeral_toString`: which numbers a store can take as
  they are written
-/

namespace DocExpr

/-- A numeral of a finite number is one that the 64-bit format reads as finite. -/
theorem isFiniteNumeral_iff (s : String) :
    isFiniteNumeral s = true ↔ ∃ x, FloatFormat.double.read? s = some x ∧ x.isFinite = true := by
  rw [isFiniteNumeral]
  cases FloatFormat.double.read? s <;> simp

/-! ## Rounding -/

/-- **The powers of the base on both sides of a ratio.** -/
theorem floorLog_bounds {base num den : Nat} (hbase : 1 < base) (hnum : 0 < num) (hden : 0 < den) :
    (base : ℚ) ^ floorLog base num den ≤ num / den ∧
      (num / den : ℚ) < (base : ℚ) ^ (floorLog base num den + 1) := by
  have hpos : (0 : ℚ) < num / den := by positivity
  have hlow := Int.zpow_log_le_self hbase hpos
  have hhigh := Int.lt_zpow_succ_log_self hbase (num / den : ℚ)
  rw [floorLog_eq hbase hnum hden hlow hhigh]
  exact ⟨hlow, hhigh⟩

section RoundHalfEven

variable {n num den : Nat}

theorem le_roundHalfEven (hden : 0 < den) (h : n * den ≤ num) : n ≤ roundHalfEven num den := by
  have hquotient : n ≤ num / den := (Nat.le_div_iff_mul_le hden).mpr h
  rw [roundHalfEven]
  split <;> omega

theorem roundHalfEven_le (hden : 0 < den) (h : num < n * den) : roundHalfEven num den ≤ n := by
  have hquotient : num / den < n := (Nat.div_lt_iff_lt_mul hden).mpr h
  rw [roundHalfEven]
  split <;> omega

end RoundHalfEven

namespace FloatFormat

variable {f : FloatFormat} {negative : Bool} {num den : Nat}

/-- A scaled ratio is compared with a power of two through its value. -/
theorem scaled_bounds (hden : 0 < den) (exponent k : Int) (n : Nat) (hk : k = exponent + n) :
    (2 ^ n * (scaleRatio 2 (-exponent) num den).2 ≤ (scaleRatio 2 (-exponent) num den).1 ↔
        (2 : ℚ) ^ k ≤ num / den) ∧
      ((scaleRatio 2 (-exponent) num den).1 < 2 ^ n * (scaleRatio 2 (-exponent) num den).2 ↔
        (num / den : ℚ) < (2 : ℚ) ^ k) := by
  have hscaled : (0 : ℚ) < (scaleRatio 2 (-exponent) num den).2 := by
    exact_mod_cast scaleRatio_den_pos (by decide) (-exponent) hden
  have hvalue := @scaleRatio_value 2 (by decide) (-exponent) num den
  have hpower : (0 : ℚ) < 2 ^ exponent := by positivity
  have hle : 2 ^ n * (scaleRatio 2 (-exponent) num den).2 ≤ (scaleRatio 2 (-exponent) num den).1 ↔
      (2 : ℚ) ^ k ≤ num / den := by
    rw [← Nat.cast_le (α := ℚ), Nat.cast_mul, ← le_div_iff₀ hscaled, hvalue, Nat.cast_pow,
      Nat.cast_ofNat, zpow_neg, ← div_eq_mul_inv, le_div_iff₀ hpower, hk, zpow_add₀ (by norm_num),
      zpow_natCast, mul_comm]
  exact ⟨hle, by rw [← not_le, hle, not_le]⟩

/-- **A ratio is rounded to a number of the format.** -/
theorem round_holds (hden : 0 < den) : f.Holds (f.round negative num den) := by
  have hprecision : 0 < f.precision := by cases f <;> decide
  rw [round]
  split
  · exact f.holds_zero negative
  next hnum =>
  obtain ⟨hlow, hhigh⟩ := floorLog_bounds one_lt_two (Nat.pos_of_ne_zero hnum) hden
  generalize hexponent : max (floorLog 2 num den - (f.precision - 1 : Nat)) f.minExponent = exponent
  have hmin : f.minExponent ≤ exponent := hexponent ▸ le_max_right _ _
  -- The exponent leaves no more bits than the precision, and all of them unless it is the least.
  have hle : roundHalfEven (scaleRatio 2 (-exponent) num den).1
      (scaleRatio 2 (-exponent) num den).2 ≤ 2 ^ f.precision := by
    refine roundHalfEven_le (scaleRatio_den_pos (by decide) _ hden)
      ((scaled_bounds hden exponent _ _ rfl).2.mpr (hhigh.trans_le ?_))
    have : floorLog 2 num den + 1 ≤ exponent + f.precision := by omega
    exact zpow_le_zpow_right₀ (by norm_num) this
  have hge : exponent ≠ f.minExponent → 2 ^ (f.precision - 1) ≤
      roundHalfEven (scaleRatio 2 (-exponent) num den).1
        (scaleRatio 2 (-exponent) num den).2 := by
    intro hne
    refine le_roundHalfEven (scaleRatio_den_pos (by decide) _ hden)
      ((scaled_bounds hden exponent (floorLog 2 num den) _ (by omega)).1.mpr hlow)
  have hhalf : 2 ^ f.precision / 2 = 2 ^ (f.precision - 1) := by
    cases f <;> decide
  simp only [Nat.pow_eq]
  generalize roundHalfEven _ _ = significand at hle hge
  by_cases hlt : significand < 2 ^ f.precision
  · simp only [if_pos hlt]
    split
    · next hmax => exact ⟨hlt, hmin, hmax, (Classical.em _).symm.imp_left hge⟩
    · trivial
  · -- The next power of two is written with the next exponent.
    simp only [if_neg hlt]
    obtain rfl : significand = 2 ^ f.precision := by omega
    rw [hhalf]
    split
    · next hmax =>
      exact ⟨Nat.pow_lt_pow_right (by decide) (by omega), by omega, hmax, .inl le_rfl⟩
    · trivial

theorem ofDecimal_holds (d : Decimal) : f.Holds (f.ofDecimal negative d) := by
  rw [ofDecimal]
  dsimp only
  split
  · exact f.holds_zero negative
  · split
    · trivial
    · exact round_holds (scaleRatio_den_pos (by decide) _ Nat.one_pos)

/-- **What a format reads is a number of the format.** -/
theorem read?_holds {s : String} {x : Binary} (h : f.read? s = some x) : f.Holds x := by
  obtain ⟨⟨negative, magnitude⟩, -, rfl⟩ := Option.map_eq_some_iff.mp h
  cases magnitude with
  | nan | infinite => trivial
  | decimal d => exact ofDecimal_holds d

/-! ## Finite numbers -/

/-- A ratio that lies well below the largest number is rounded to a finite one. -/
theorem isFinite_round (h : floorLog 2 num den < f.maxExponent + (f.precision - 1 : Nat)) :
    (f.round negative num den).isFinite = true := by
  have hrange : f.minExponent < f.maxExponent := by cases f <;> decide
  rw [round]
  split
  · rfl
  · dsimp only
    -- The exponent may go up by one, and even then it is not too large.
    by_cases hlt : roundHalfEven (scaleRatio 2 (-max (floorLog 2 num den -
        (f.precision - 1 : Nat)) f.minExponent) num den).1 (scaleRatio 2 (-max (floorLog 2 num den -
        (f.precision - 1 : Nat)) f.minExponent) num den).2 < Nat.pow 2 f.precision
    · simp only [if_pos hlt]
      rw [if_pos (by omega)]
      rfl
    · simp only [if_neg hlt]
      rw [if_pos (by omega)]
      rfl

/-- A ratio that is rounded to a finite number is not above the largest one. -/
theorem floorLog_le_of_isFinite (hnum : num ≠ 0) (h : (f.round negative num den).isFinite = true) :
    floorLog 2 num den ≤ f.maxExponent + (f.precision - 1 : Nat) := by
  rw [round, if_neg hnum] at h
  by_contra hlarge
  dsimp only at h
  rw [if_neg] at h
  · cases h
  · split <;> omega

/-- The 64-bit format reaches beyond the 32-bit one. -/
theorem isFinite_double_of_single {d : Decimal}
    (h : (single.ofDecimal negative d).isFinite = true) :
    (double.ofDecimal negative d).isFinite = true := by
  rw [ofDecimal] at h ⊢
  dsimp only at h ⊢
  -- The reach of a decimal is the same for both formats, so only a rounded ratio is left.
  split
  · rfl
  next hzero =>
  rw [if_neg hzero] at h
  split
  · next hreach =>
    rw [if_pos hreach] at h
    cases h
  next hreach =>
  rw [if_neg hreach] at h
  have hnum : (scaleRatio 10 d.exponent d.coefficient 1).1 ≠ 0 := by
    have hcoefficient : d.coefficient ≠ 0 := fun h => hzero (.inl h)
    simp [scaleRatio, hcoefficient]
  have hlog := floorLog_le_of_isFinite hnum h
  refine isFinite_round (lt_of_le_of_lt hlog ?_)
  decide

/-- **What is finite in one format, a store can take.** -/
theorem isFiniteNumeral_of_read? {s : String} {x : Binary} (h : f.read? s = some x)
    (hfinite : x.isFinite = true) : isFiniteNumeral s = true := by
  rw [isFiniteNumeral_iff]
  cases f with
  | double => exact ⟨x, h, hfinite⟩
  | single =>
    obtain ⟨⟨negative, magnitude⟩, hread, rfl⟩ := Option.map_eq_some_iff.mp h
    refine ⟨double.ofNumeral ⟨negative, magnitude⟩, by rw [read?, hread]; rfl, ?_⟩
    cases magnitude with
    | nan | infinite => cases hfinite
    | decimal d => exact isFinite_double_of_single hfinite

/-- **A number can be stored as it is written exactly when it is finite.** -/
theorem isFiniteNumeral_text {x : Binary} (h : f.Holds x) :
    isFiniteNumeral (f.text x) = x.isFinite := by
  cases x with
  | nan => cases f <;> decide +kernel
  | infinite negative => cases f <;> cases negative <;> decide +kernel
  | finite negative significand exponent => exact isFiniteNumeral_of_read? (read?_text h) rfl

end FloatFormat

/-! ## Integers -/

theorem length_toDigits_two_le {n k : Nat} (hk : 0 < k) (h : n < 2 ^ k) :
    (Nat.toDigits 2 n).length ≤ k :=
  (Nat.length_toDigits_le_iff (by decide) hk).mpr h

/-- A small whole number is far from the largest one. -/
theorem FloatFormat.isFinite_whole {negative : Bool} {n : Nat} (h : n < 2 ^ 64) :
    (double.ofDecimal negative ⟨n, 0⟩).isFinite = true := by
  rw [ofDecimal]
  dsimp only
  split
  · rfl
  rw [if_neg (by decide)]
  refine isFinite_round ?_
  have hratio : scaleRatio 10 0 n 1 = (n, 1) := by simp [scaleRatio]
  simp only [hratio]
  have hlength := length_toDigits_two_le (by decide) h
  have hlog : floorLog 2 n 1 ≤ (Nat.toDigits 2 n).length := by
    rw [floorLog]
    dsimp only
    split <;> omega
  have hmax : (64 : Int) < double.maxExponent + (double.precision - 1 : Nat) := by decide
  omega

/-- An integer is written as the decimal with its digits is, behind a sign if it needs one. -/
theorem toString_eq_positional (n : Int) : toString n =
    String.ofList (if decide (n < 0) then '-' :: (Decimal.mk n.natAbs 0).positional
      else (Decimal.mk n.natAbs 0).positional) := by
  rw [← String.toList_inj, String.toList_ofList]
  cases n with
  | ofNat n =>
    rw [toList_toString_ofNat, if_neg (by simp)]
    simp [Decimal.positional]
  | negSucc n =>
    rw [toList_toString_negSucc, if_pos (by simp)]
    simp [Decimal.positional]

/-- **A store can take an integer of any type.** -/
theorem isFiniteNumeral_toString {type : IntegerType} {n : Int} (h : type.contains n = true) :
    isFiniteNumeral (toString n) = true := by
  have hsmall : n.natAbs < 2 ^ 64 := by
    simp only [IntegerType.contains, Bool.and_eq_true, decide_eq_true_eq] at h
    cases type <;> simp only [IntegerType.lower, IntegerType.upper] at h <;> omega
  rw [isFiniteNumeral_iff, toString_eq_positional]
  refine ⟨_, by rw [FloatFormat.read?, Decimal.read?_positional]; rfl, ?_⟩
  exact FloatFormat.isFinite_whole (by simpa [Decimal.spelled] using hsmall)

end DocExpr
