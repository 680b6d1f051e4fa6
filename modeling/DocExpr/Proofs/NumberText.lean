import DocExpr.Numeric.Shortest
import Mathlib.Algebra.Order.Field.Power
import Mathlib.Data.Nat.Log
import Mathlib.Tactic.FieldSimp
import Mathlib.Tactic.Positivity
import Mathlib.Tactic.Linarith
import Mathlib.Tactic.NormNum
import Mathlib.Tactic.Ring

/-!
# Numbers keep their value as text

A number is written as text and read back from it.  For an integer the text is its digits behind a
sign, and only the range has to be looked at.  For a float the text is the shortest decimal that
reads back, so the search itself checks most of what is to be shown; what is left are the numbers
for which the search fails, whose text is exact, and the layout of the digits around the point.

A ratio is compared with powers of a base through its value, which is a rational number here and
nowhere else.

## Main definitions

* `FloatFormat.Holds`: the numbers of a format

## Main results

* `IntegerType.read?_toString`: an integer in the range of a type is read back
* `floorLog_eq`: the logarithm of a ratio, rounded down
* `FloatFormat.round_eq`: a ratio that is a number of the format is rounded to it
* `FloatFormat.read?_text`: a number of a format is read back from its text
-/

namespace DocExpr

/-! ## Integers -/

theorem readDigits?_toDigits (n : Nat) : readDigits? (Nat.toDigits 10 n) = some n := by
  have hdigits : (Nat.toDigits 10 n).all Char.isDigit :=
    List.all_eq_true.mpr fun c hc => Nat.isDigit_of_mem_toDigits (by decide) (by decide) hc
  rw [readDigits?, if_pos ⟨Nat.toDigits_ne_nil, hdigits⟩, Nat.ofDigitChars_ten_toDigits]

theorem toList_toString_ofNat (n : Nat) : (toString (Int.ofNat n)).toList = Nat.toDigits 10 n :=
  Nat.toList_repr

theorem toList_toString_negSucc (n : Nat) :
    (toString (Int.negSucc n)).toList = '-' :: Nat.toDigits 10 (n + 1) := by
  rw [show toString (Int.negSucc n) = "-" ++ Nat.repr (n + 1) from rfl, String.toList_append,
    Nat.toList_repr]
  rfl

/-- Digits are no sign. -/
theorem head_digits_ne {c : Char} (cs : List Char) (hdigit : c.isDigit) :
    (c :: cs).head? ≠ some '-' ∧ (c :: cs).head? ≠ some '+' := by
  rw [List.head?_cons]
  constructor <;> rintro ⟨⟩ <;> exact absurd hdigit (by decide)

namespace IntegerType

theorem readUnbounded?_of_digits (type : IntegerType) (n : Nat) :
    type.readUnbounded? (Nat.toDigits 10 n) = some (n : Int) := by
  cases hdigits : Nat.toDigits 10 n with
  | nil => exact absurd hdigits Nat.toDigits_ne_nil
  | cons c rest =>
    have hc : c.isDigit := Nat.isDigit_of_mem_toDigits (b := 10) (n := n) (by decide) (by decide)
      (by rw [hdigits]; exact List.mem_cons_self ..)
    obtain ⟨hminus, hplus⟩ := head_digits_ne rest hc
    have hread : readDigits? (c :: rest) = some n := by rw [← hdigits, readDigits?_toDigits]
    rw [readUnbounded?, hread]
    · rfl
    · rintro digits heq
      exact hplus (by rw [(List.cons.inj heq).1]; rfl)
    · rintro digits heq
      exact hminus (by rw [(List.cons.inj heq).1]; rfl)

/-- **An integer in the range of a type is read back from its text.**  An unsigned type holds no
number with a minus sign, so there is none to refuse. -/
theorem read?_toString (type : IntegerType) {n : Int} (h : type.contains n) :
    type.read? (toString n) = some n := by
  have hunbounded : type.readUnbounded? (toString n).toList = some n := by
    cases n with
    | ofNat n =>
      rw [toList_toString_ofNat]
      exact type.readUnbounded?_of_digits n
    | negSucc n =>
      have hsigned : type.isSigned := by
        cases type <;> first | rfl | (simp [contains, lower] at h)
      rw [toList_toString_negSucc, readUnbounded?, if_pos hsigned, readDigits?_toDigits]
      rfl
  rw [read?, hunbounded, Option.filter_some, if_pos h]

end IntegerType

/-! ## Ratios -/

section Ratio

variable {base : Nat}

/-- A scaled ratio is worth as much more as the power says. -/
theorem scaleRatio_value (hbase : 0 < base) (exponent : Int) (num den : Nat) :
    ((scaleRatio base exponent num den).1 : ℚ) / (scaleRatio base exponent num den).2 =
      num / den * (base : ℚ) ^ exponent := by
  have hpos : (0 : ℚ) < base := by exact_mod_cast hbase
  obtain ⟨k, rfl | rfl⟩ := exponent.eq_nat_or_neg
  · simp only [scaleRatio, Nat.pow_eq, Int.toNat_natCast, Int.toNat_neg_natCast, pow_zero, mul_one,
      zpow_natCast, Nat.cast_mul, Nat.cast_pow]
    ring
  · simp only [scaleRatio, Nat.pow_eq, Int.toNat_natCast, Int.toNat_neg_natCast, pow_zero, mul_one,
      zpow_neg, zpow_natCast, Nat.cast_mul, Nat.cast_pow, neg_neg]
    rw [div_mul_eq_div_div, div_eq_mul_inv]

theorem scaleRatio_den_pos (hbase : 0 < base) (exponent : Int) {num den : Nat} (hden : 0 < den) :
    0 < (scaleRatio base exponent num den).2 := by
  rw [scaleRatio]
  exact Nat.mul_pos hden (Nat.pow_pos hbase)

/-- The count of the digits tells between which powers of the base a number lies. -/
theorem length_toDigits_bounds (hbase : 1 < base) {n : Nat} (hn : 0 < n) :
    (base : ℚ) ^ (((Nat.toDigits base n).length : Int) - 1) ≤ n ∧
      (n : ℚ) < (base : ℚ) ^ ((Nat.toDigits base n).length : Int) := by
  have hpos : 0 < (Nat.toDigits base n).length := Nat.length_toDigits_pos
  have hlt : n < base ^ (Nat.toDigits base n).length :=
    (Nat.length_toDigits_le_iff hbase hpos).mp le_rfl
  have hle : base ^ ((Nat.toDigits base n).length - 1) ≤ n := by
    rcases Nat.eq_zero_or_pos ((Nat.toDigits base n).length - 1) with hone | hmore
    · rw [hone, pow_zero]
      exact hn
    · refine Nat.not_lt.mp fun hsmall => ?_
      have := (Nat.length_toDigits_le_iff hbase hmore).mpr hsmall
      omega
  refine ⟨?_, by exact_mod_cast hlt⟩
  have hexponent : ((Nat.toDigits base n).length : Int) - 1 =
      (((Nat.toDigits base n).length - 1 : Nat) : Int) := by omega
  rw [hexponent, zpow_natCast]
  exact_mod_cast hle

/-- **The logarithm of a ratio, rounded down.**  The counts of the digits leave two candidates, and
one comparison decides between them. -/
theorem floorLog_eq (hbase : 1 < base) {num den : Nat} (hnum : 0 < num) (hden : 0 < den) {k : Int}
    (hlow : (base : ℚ) ^ k ≤ num / den) (hhigh : (num / den : ℚ) < (base : ℚ) ^ (k + 1)) :
    floorLog base num den = k := by
  have hone : (1 : ℚ) < base := by exact_mod_cast hbase
  have hpos : (0 : ℚ) < base := by linarith
  have hdenpos : (0 : ℚ) < den := by exact_mod_cast hden
  obtain ⟨hnumlow, hnumhigh⟩ := length_toDigits_bounds hbase hnum
  obtain ⟨hdenlow, hdenhigh⟩ := length_toDigits_bounds hbase hden
  generalize hguess : ((Nat.toDigits base num).length : Int) - (Nat.toDigits base den).length =
    guess
  have hbelow : k < guess + 1 := by
    refine (zpow_lt_zpow_iff_right₀ hone).mp (hlow.trans_lt ?_)
    rw [div_lt_iff₀ hdenpos]
    calc (num : ℚ) < (base : ℚ) ^ ((Nat.toDigits base num).length : Int) := hnumhigh
      _ = (base : ℚ) ^ (guess + 1) * (base : ℚ) ^ (((Nat.toDigits base den).length : Int) - 1) := by
        rw [← zpow_add₀ hpos.ne']
        congr 1
        omega
      _ ≤ (base : ℚ) ^ (guess + 1) * den := by gcongr
  have habove : guess - 1 < k + 1 := by
    refine (zpow_lt_zpow_iff_right₀ hone).mp (lt_of_le_of_lt ?_ hhigh)
    rw [le_div_iff₀ hdenpos]
    calc (base : ℚ) ^ (guess - 1) * den
        ≤ (base : ℚ) ^ (guess - 1) * (base : ℚ) ^ ((Nat.toDigits base den).length : Int) := by
          gcongr
      _ = (base : ℚ) ^ (((Nat.toDigits base num).length : Int) - 1) := by
        rw [← zpow_add₀ hpos.ne']
        congr 1
        omega
      _ ≤ num := hnumlow
  -- The comparison asks whether the ratio is below the guessed power.
  have hscaled : (scaleRatio base (-guess) num den).1 < (scaleRatio base (-guess) num den).2 ↔
      (num / den : ℚ) < (base : ℚ) ^ guess := by
    have hvalue := scaleRatio_value (Nat.zero_lt_of_lt hbase) (-guess) num den
    have hscaledpos : (0 : ℚ) < (scaleRatio base (-guess) num den).2 := by
      exact_mod_cast scaleRatio_den_pos (Nat.zero_lt_of_lt hbase) (-guess) hden
    have hpower : (0 : ℚ) < (base : ℚ) ^ guess := zpow_pos hpos guess
    rw [← Nat.cast_lt (α := ℚ), ← div_lt_one hscaledpos, hvalue, zpow_neg, ← div_eq_mul_inv,
      div_lt_one hpower]
  simp only [floorLog, hguess]
  split
  · next hlt =>
    have hk : k < guess := (zpow_lt_zpow_iff_right₀ hone).mp (hlow.trans_lt (hscaled.mp hlt))
    omega
  · next hge =>
    have hk : guess < k + 1 :=
      (zpow_lt_zpow_iff_right₀ hone).mp ((not_lt.mp (hscaled.not.mp hge)).trans_lt hhigh)
    omega

end Ratio

/-! ## Floats -/

namespace FloatFormat

/-- The numbers of a format.  A significand has all its bits unless the exponent is the least. -/
def Holds (f : FloatFormat) : Binary → Prop
  | .nan | .infinite _ => True
  | .finite _ significand exponent =>
    significand < 2 ^ f.precision ∧ f.minExponent ≤ exponent ∧ exponent ≤ f.maxExponent ∧
      (2 ^ (f.precision - 1) ≤ significand ∨ exponent = f.minExponent)

theorem holds_zero (f : FloatFormat) (negative : Bool) : f.Holds (f.zero negative) := by
  cases f <;> exact ⟨by decide, by decide, by decide, .inr rfl⟩

theorem roundHalfEven_mul (n : Nat) {den : Nat} (hden : 0 < den) :
    roundHalfEven (n * den) den = n := by
  rw [roundHalfEven, Nat.mul_div_cancel n hden, Nat.mul_mod_left, if_neg]
  omega

variable {f : FloatFormat} {negative : Bool} {significand : Nat} {exponent : Int}

/-- **A ratio that is a number of the format is rounded to it.** -/
theorem round_eq (h : f.Holds (.finite negative significand exponent)) (hpos : 0 < significand)
    {num den : Nat} (hden : 0 < den)
    (hvalue : (num / den : ℚ) = significand * 2 ^ exponent) :
    f.round negative num den = .finite negative significand exponent := by
  obtain ⟨hlt, hmin, hmax, hnormal⟩ := h
  have hdenpos : (0 : ℚ) < den := by exact_mod_cast hden
  have hsignificand : (0 : ℚ) < significand := by exact_mod_cast hpos
  have hnum : 0 < num := by
    have : (0 : ℚ) < num / den := by
      rw [hvalue]
      positivity
    exact_mod_cast (div_pos_iff_of_pos_right hdenpos).mp this
  -- The logarithm of the ratio is that of the significand, moved by the exponent.
  have hlog : floorLog 2 num den = Nat.log 2 significand + exponent := by
    have hlow : 2 ^ Nat.log 2 significand ≤ significand := Nat.pow_log_le_self 2 hpos.ne'
    have hhigh : significand < 2 ^ (Nat.log 2 significand + 1) :=
      Nat.lt_pow_succ_log_self (by decide) significand
    have hpower : (0 : ℚ) < 2 ^ exponent := zpow_pos (by norm_num) exponent
    apply floorLog_eq (by decide) hnum hden
    · rw [hvalue, Nat.cast_ofNat, zpow_add₀ (by norm_num), zpow_natCast]
      have hlow : (2 : ℚ) ^ Nat.log 2 significand ≤ significand := by exact_mod_cast hlow
      gcongr
    · rw [hvalue, Nat.cast_ofNat, add_right_comm, zpow_add₀ (by norm_num)]
      have hhigh : (significand : ℚ) < 2 ^ (Nat.log 2 significand + 1 : Int) := by
        exact_mod_cast hhigh
      gcongr
  have hexponent : max (floorLog 2 num den - (f.precision - 1 : Nat)) f.minExponent = exponent := by
    have hprecision : 0 < f.precision := by cases f <;> decide
    have hlogle : Nat.log 2 significand < f.precision :=
      Nat.log_lt_of_lt_pow hpos.ne' hlt
    rw [hlog]
    rcases hnormal with hnormal | hleast
    · have hlogge : f.precision - 1 ≤ Nat.log 2 significand :=
        (Nat.le_log_iff_pow_le (by decide) hpos.ne').mpr hnormal
      omega
    · omega
  have hrounded : roundHalfEven (scaleRatio 2 (-exponent) num den).1
      (scaleRatio 2 (-exponent) num den).2 = significand := by
    have hscaled : 0 < (scaleRatio 2 (-exponent) num den).2 :=
      scaleRatio_den_pos (by decide) (-exponent) hden
    have hscaledpos : (0 : ℚ) < (scaleRatio 2 (-exponent) num den).2 := by exact_mod_cast hscaled
    have hratio := @scaleRatio_value 2 (by decide) (-exponent) num den
    rw [hvalue, Nat.cast_ofNat, mul_assoc, ← zpow_add₀ (by norm_num), add_neg_cancel, zpow_zero,
      mul_one, div_eq_iff hscaledpos.ne'] at hratio
    rw [show (scaleRatio 2 (-exponent) num den).1 =
      significand * (scaleRatio 2 (-exponent) num den).2 by exact_mod_cast hratio]
    exact roundHalfEven_mul significand hscaled
  simp only [round, if_neg hnum.ne', hexponent, hrounded, Nat.pow_eq, if_pos hlt, if_pos hmax]

/-- The sign goes through rounding. -/
theorem round_negative {num den : Nat}
    (h : f.round false num den = .finite false significand exponent) (negative : Bool) :
    f.round negative num den = .finite negative significand exponent := by
  simp only [round] at h ⊢
  split_ifs at h ⊢ <;> cases h <;> rfl

theorem ofDecimal_negative {d : Decimal}
    (h : f.ofDecimal false d = .finite false significand exponent) (negative : Bool) :
    f.ofDecimal negative d = .finite negative significand exponent := by
  rw [ofDecimal] at h ⊢
  dsimp only at h ⊢
  split at h
  · next hzero =>
    rw [if_pos hzero]
    cases h
    rfl
  · next hzero =>
    rw [if_neg hzero]
    split at h
    · cases h
    · next hreach =>
      rw [if_neg hreach]
      exact round_negative h negative

end FloatFormat

/-! ## The text of a decimal -/

/-- The decimal that is read from the text of a decimal: zeros at its end are digits like others. -/
def Decimal.spelled (d : Decimal) : Decimal :=
  ⟨d.coefficient * 10 ^ d.exponent.toNat, min d.exponent 0⟩

namespace Numeral

variable {whole fraction : List Char}

theorem span_isDigit (rest : List Char) (h : ∀ c ∈ whole, c.isDigit)
    (hrest : ∀ c ∈ rest.head?, c.isDigit = false) :
    (whole ++ rest).span Char.isDigit = (whole, rest) := by
  rw [List.span_eq_takeWhile_dropWhile, List.takeWhile_append_of_pos h,
    List.dropWhile_append_of_pos h]
  cases rest with
  | nil => simp
  | cons c rest => simp [hrest c rfl]

/-- Digits alone. -/
theorem readDecimal?_whole (h : ∀ c ∈ whole, c.isDigit) (hne : whole ≠ []) :
    readDecimal? whole = some ⟨Nat.ofDigitChars 10 whole 0, 0⟩ := by
  have hspan := span_isDigit [] h (by simp)
  have hread : readDigits? whole = some (Nat.ofDigitChars 10 whole 0) :=
    if_pos ⟨hne, List.all_eq_true.mpr h⟩
  rw [List.append_nil] at hspan
  rw [readDecimal?, hspan]
  simp [splitFraction, readExponent?, hread]

/-- Digits around a point. -/
theorem readDecimal?_point (h : ∀ c ∈ whole ++ fraction, c.isDigit) (hne : whole ≠ []) :
    readDecimal? (whole ++ '.' :: fraction) =
      some ⟨Nat.ofDigitChars 10 (whole ++ fraction) 0, -(fraction.length : Int)⟩ := by
  obtain ⟨hwhole, hfraction⟩ := List.forall_mem_append.mp h
  have hspan := span_isDigit ('.' :: fraction) hwhole (by simp)
  have htail := span_isDigit [] hfraction (by simp)
  have hread : readDigits? (whole ++ fraction) =
      some (Nat.ofDigitChars 10 (whole ++ fraction) 0) :=
    if_pos ⟨by simp [hne], List.all_eq_true.mpr h⟩
  rw [List.append_nil] at htail
  rw [readDecimal?, hspan]
  simp only [splitFraction, htail, hread, readExponent?, Option.bind_eq_bind, Option.bind_some]
  simp

end Numeral

namespace Decimal

variable (d : Decimal)

/-- Some digits, a point perhaps, and more digits. -/
theorem positional_cases :
    (∃ whole, d.positional = whole ∧ whole ≠ [] ∧ (∀ c ∈ whole, c.isDigit) ∧
        d.spelled = ⟨Nat.ofDigitChars 10 whole 0, 0⟩) ∨
      ∃ whole fraction, d.positional = whole ++ '.' :: fraction ∧ whole ≠ [] ∧
        (∀ c ∈ whole ++ fraction, c.isDigit) ∧
        d.spelled = ⟨Nat.ofDigitChars 10 (whole ++ fraction) 0, -(fraction.length : Int)⟩ := by
  have hdigit : ∀ c ∈ Nat.toDigits 10 d.coefficient, c.isDigit := fun c hc =>
    Nat.isDigit_of_mem_toDigits (by decide) (by decide) hc
  have hvalue : Nat.ofDigitChars 10 (Nat.toDigits 10 d.coefficient) 0 = d.coefficient :=
    Nat.ofDigitChars_ten_toDigits
  rw [positional]
  split
  · next hplaces =>
    -- Zeros stand for a power of ten that is not negative.
    left
    refine ⟨_, rfl, by simp, fun c hc => ?_, ?_⟩
    · rcases List.mem_append.mp hc with hc | hc
      · exact hdigit c hc
      · rw [(List.mem_replicate.mp hc).2]
        decide
    · rw [spelled, Nat.ofDigitChars_append, hvalue, Nat.ofDigitChars_replicate_zero,
        min_eq_right (by omega), Nat.mul_comm]
  · next hplaces =>
    right
    have hzero : d.exponent.toNat = 0 := by omega
    split
    · next hlt =>
      refine ⟨_, _, rfl, ?_, ?_, ?_⟩
      · rw [← List.length_pos_iff, List.length_take]
        omega
      · rw [List.take_append_drop]
        exact hdigit
      · rw [spelled, List.take_append_drop, hvalue, hzero, pow_zero, mul_one, List.length_drop,
          min_eq_left (by omega)]
        congr 1
        omega
    · next hge =>
      refine ⟨['0'], List.replicate _ '0' ++ Nat.toDigits 10 d.coefficient, rfl, by simp, ?_, ?_⟩
      · intro c hc
        rcases List.mem_append.mp hc with hc | hc
        · rw [List.mem_singleton.mp hc]
          decide
        · rcases List.mem_append.mp hc with hc | hc
          · rw [(List.mem_replicate.mp hc).2]
            decide
          · exact hdigit c hc
      · have hleading : ∀ k, Nat.ofDigitChars 10
            (['0'] ++ (List.replicate k '0' ++ Nat.toDigits 10 d.coefficient)) 0 =
              d.coefficient := by
          intro k
          rw [← List.append_assoc, ← List.replicate_one, List.replicate_append_replicate,
            Nat.ofDigitChars_append, Nat.ofDigitChars_replicate_zero, mul_zero, hvalue]
        rw [spelled, hleading, hzero, pow_zero, mul_one, List.length_append, List.length_replicate,
          min_eq_left (by omega)]
        congr 1
        omega

/-- The text of a decimal starts with a digit, and reads as the decimal it spells. -/
theorem readMagnitude?_positional :
    (∀ c ∈ d.positional.head?, c.isDigit) ∧
      Numeral.readMagnitude? d.positional = some (.decimal d.spelled) := by
  have hstart : (∀ c ∈ d.positional.head?, c.isDigit) ∧ d.positional ≠ [] ∧
      Numeral.readDecimal? d.positional = some d.spelled := by
    rcases d.positional_cases with ⟨whole, htext, hne, hdigit, hspelled⟩ |
      ⟨whole, fraction, htext, hne, hdigit, hspelled⟩
    · rw [htext, hspelled]
      exact ⟨fun c hc => hdigit c (List.mem_of_mem_head? hc), hne,
        Numeral.readDecimal?_whole hdigit hne⟩
    · rw [htext, hspelled]
      refine ⟨fun c hc => ?_, by simp, Numeral.readDecimal?_point hdigit hne⟩
      rw [List.head?_append_of_ne_nil _ hne] at hc
      exact hdigit c (List.mem_append_left _ (List.mem_of_mem_head? hc))
  obtain ⟨hhead, hne, hread⟩ := hstart
  refine ⟨hhead, ?_⟩
  -- A word starts with a letter, a decimal does not.
  have hword : ∀ letter : Char, letter.isDigit = false → ∀ rest : List Char,
      d.positional.map Char.toLower ≠ letter :: rest := by
    intro letter hletter rest heq
    cases htext : d.positional with
    | nil => exact hne htext
    | cons c cs =>
      rw [htext] at heq hhead
      have hc : c.isDigit := hhead c rfl
      have hlower : c.toLower = c := by
        refine dif_neg ?_
        rintro ⟨hupper, -⟩
        simp only [Char.isDigit, Bool.and_eq_true, decide_eq_true_eq] at hc
        exact absurd (UInt32.le_trans hupper hc.2) (by decide)
      rw [List.map_cons, hlower] at heq
      rw [(List.cons.inj heq).1, hletter] at hc
      cases hc
  rw [Numeral.readMagnitude?]
  rw [if_neg (hword 'n' (by decide) _), if_neg, hread]
  · rfl
  · rintro (h | h)
    · exact hword 'i' (by decide) _ h
    · exact hword 'i' (by decide) _ h

/-- **A decimal behind a sign is read back.** -/
theorem read?_positional (negative : Bool) :
    Numeral.read? (String.ofList (if negative then '-' :: d.positional else d.positional)) =
      some ⟨negative, .decimal d.spelled⟩ := by
  obtain ⟨hhead, hread⟩ := d.readMagnitude?_positional
  have hsplit : Numeral.splitSign (if negative then '-' :: d.positional else d.positional) =
      (negative, d.positional) := by
    cases negative with
    | true => rfl
    | false =>
      cases htext : d.positional with
      | nil => rfl
      | cons c cs =>
        rw [htext] at hhead
        obtain ⟨hminus, hplus⟩ := head_digits_ne cs (hhead c rfl)
        rw [if_neg (by decide), Numeral.splitSign]
        · rintro rest heq
          exact hminus (by rw [(List.cons.inj heq).1]; rfl)
        · rintro rest heq
          exact hplus (by rw [(List.cons.inj heq).1]; rfl)
  rw [Numeral.read?, String.toList_ofList, hsplit]
  simp [hread]

end Decimal

namespace FloatFormat

variable {f : FloatFormat} {negative : Bool} {significand : Nat} {exponent : Int}

/-- What a decimal spells is as near to a number as the decimal itself. -/
theorem ofDecimal_spelled {d : Decimal} (hpos : 0 < significand)
    (h : f.ofDecimal negative d = .finite negative significand exponent) :
    f.ofDecimal negative d.spelled = .finite negative significand exponent := by
  rcases Int.lt_or_le d.exponent 0 with hneg | hnonneg
  · have hsame : d.spelled = d := by
      rw [Decimal.spelled, min_eq_left hneg.le, Int.toNat_of_nonpos hneg.le, pow_zero, mul_one]
    rw [hsame, h]
  · rw [ofDecimal] at h
    dsimp only at h
    -- A number that is neither zero nor infinite comes from a ratio.
    split at h
    · cases h
      exact absurd hpos (lt_irrefl 0)
    · next hzero =>
      split at h
      · cases h
      · next hreach =>
        have hcoefficient : d.coefficient * 10 ^ d.exponent.toNat ≠ 0 := by
          have : d.coefficient ≠ 0 := fun h => hzero (.inl h)
          positivity
        have hratio : scaleRatio 10 0 (d.coefficient * 10 ^ d.exponent.toNat) 1 =
            scaleRatio 10 d.exponent d.coefficient 1 := by
          have hopposite : (-d.exponent).toNat = 0 := by omega
          simp [scaleRatio, hopposite]
        rw [Decimal.spelled, ofDecimal, min_eq_right hnonneg]
        dsimp only
        rw [if_neg, if_neg, hratio]
        · exact h
        · simp [decimalReach]
        · rintro (h | h)
          · exact hcoefficient h
          · simp [decimalReach] at h
            omega

/-- A negative power of two has many digits as a decimal, so it stays within reach. -/
theorem reach_le_magnitude {k reach : Nat} (hpos : 0 < significand) (hk : k ≤ 3 * reach) :
    -(reach : Int) ≤ -k + ((Nat.toDigits 10 (significand * 5 ^ k)).length : Int) := by
  have hlength : 0 < (Nat.toDigits 10 (significand * 5 ^ k)).length := Nat.length_toDigits_pos
  rcases Nat.lt_or_ge k reach with hsmall | hlarge
  · omega
  · have hpower : 10 ^ (k - reach) ≤ significand * 5 ^ k :=
      calc 10 ^ (k - reach) = 2 ^ (k - reach) * 5 ^ (k - reach) := by rw [← Nat.mul_pow]
        _ ≤ 2 ^ (2 * reach) * 5 ^ (k - reach) :=
          Nat.mul_le_mul_right _ (Nat.pow_le_pow_right (by decide) (by omega))
        _ = 4 ^ reach * 5 ^ (k - reach) := by norm_num [pow_mul]
        _ ≤ 5 ^ reach * 5 ^ (k - reach) :=
          Nat.mul_le_mul_right _ (Nat.pow_le_pow_left (by decide) reach)
        _ = 5 ^ k := by rw [← pow_add, Nat.add_sub_cancel' hlarge]
        _ ≤ significand * 5 ^ k := Nat.le_mul_of_pos_left _ hpos
    have hmore : k - reach < (Nat.toDigits 10 (significand * 5 ^ k)).length := by
      by_contra hless
      have hbound := (Nat.length_toDigits_le_iff (n := significand * 5 ^ k) (b := 10) (by decide)
        (hlength.trans_le (not_lt.mp hless))).mp (not_lt.mp hless)
      exact absurd hpower (not_le.mpr hbound)
    omega

/-- The exact decimal of a number reads back. -/
theorem ofDecimal_exact (h : f.Holds (.finite false significand exponent))
    (hpos : 0 < significand) :
    f.ofDecimal false (Shortest.exact significand exponent) =
      .finite false significand exponent := by
  have hrange : -1074 ≤ exponent := by
    have hmin := h.2.1
    cases f <;> simp only [minExponent] at hmin <;> omega
  rw [Shortest.exact]
  split
  · next hneg =>
    -- The power of two in the denominator is brought to a power of ten.
    obtain ⟨k, rfl⟩ : ∃ k : Nat, exponent = -k := ⟨(-exponent).toNat, by omega⟩
    have hcoefficient : significand * 5 ^ k ≠ 0 := by positivity
    have hdigits := reach_le_magnitude hpos (show k ≤ 3 * decimalReach by rw [decimalReach]; omega)
    simp only [ofDecimal, neg_neg, Int.toNat_natCast, Nat.pow_eq]
    rw [if_neg, if_neg]
    · refine round_eq h hpos (scaleRatio_den_pos (by decide) _ Nat.one_pos) ?_
      rw [scaleRatio_value (by decide), zpow_neg, zpow_neg, zpow_natCast, zpow_natCast]
      push_cast
      rw [show (10 : ℚ) = 2 * 5 by norm_num, mul_pow]
      field_simp
    · simp only [decimalReach]
      omega
    · exact not_or.mpr ⟨hcoefficient, not_lt.mpr hdigits⟩
  · next hnonneg =>
    obtain ⟨k, rfl⟩ : ∃ k : Nat, exponent = k := ⟨exponent.toNat, by omega⟩
    have hcoefficient : significand * 2 ^ k ≠ 0 := by positivity
    simp only [ofDecimal, Int.toNat_natCast, Nat.pow_eq]
    rw [if_neg, if_neg]
    · refine round_eq h hpos (scaleRatio_den_pos (by decide) _ Nat.one_pos) ?_
      rw [scaleRatio_value (by decide)]
      simp
    · simp [decimalReach]
    · simp only [decimalReach, not_or]
      exact ⟨hcoefficient, by omega⟩

/-- The decimal whose text a number gets reads back. -/
theorem ofDecimal_ofFinite (h : f.Holds (.finite false significand exponent))
    (hpos : 0 < significand) :
    f.ofDecimal false (Shortest.ofFinite f significand exponent) =
      .finite false significand exponent := by
  rw [Shortest.ofFinite]
  cases hfound : (List.range Shortest.maxLength).findSome? fun n =>
      Shortest.ofLength? f significand exponent (n + 1) with
  | none => exact ofDecimal_exact h hpos
  | some d =>
    -- What the search finds was read back by the search.
    obtain ⟨n, -, hlength⟩ := List.exists_of_findSome?_eq_some hfound
    have hread := List.find?_some hlength
    simpa using hread

/-- **A number of a format is read back from its text.** -/
theorem read?_text {x : Binary} (h : f.Holds x) : f.read? (f.text x) = some x := by
  cases x with
  | nan => cases f <;> decide +kernel
  | infinite negative => cases f <;> cases negative <;> decide +kernel
  | finite negative significand exponent =>
    rcases Nat.eq_zero_or_pos significand with rfl | hpos
    · have hleast : exponent = f.minExponent := by
        rcases h.2.2.2 with hnormal | hleast
        · exact absurd hnormal (by cases f <;> decide)
        · exact hleast
      subst hleast
      cases f <;> cases negative <;> decide +kernel
    · have hholds : f.Holds (.finite false significand exponent) := h
      have hread := ofDecimal_ofFinite hholds hpos
      rw [text, if_neg hpos.ne', read?, Decimal.read?_positional]
      have hspelled := ofDecimal_spelled hpos (ofDecimal_negative hread negative)
      exact congrArg some hspelled

end FloatFormat

end DocExpr
