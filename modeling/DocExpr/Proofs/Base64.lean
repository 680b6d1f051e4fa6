import DocExpr.Base64

/-!
# Base64 is canonical

Every text that is read as bytes is the text that the bytes are written as, so there is one text for
each list of bytes.  Both directions go group by group: a group of bytes is a number below `2 ^ 24`,
and its symbols and its bytes are the digits of that number to two bases.

## Main results

* `Base64.symbol_of_sextet?`, `Base64.sextet?_symbol`: symbols and numbers below 64
* `Base64.decode?_eq_some_iff`: a text is read as some bytes exactly when it is the text of them
-/

namespace DocExpr.Base64

/-! ## Symbols -/

theorem sextet?_symbol {n : Nat} (h : n < 64) : sextet? (symbol n) = some n := by
  have hall : ∀ n < 64, sextet? (symbol n) = some n := by decide
  exact hall n h

/-- The padding is no symbol. -/
theorem sextet?_padding : sextet? '=' = none := by decide

theorem symbol_ne_padding {n : Nat} (h : n < 64) : symbol n ≠ '=' := by
  intro heq
  have hsome := sextet?_symbol h
  rw [heq, sextet?_padding] at hsome
  cases hsome

/-- A character that has a number is the symbol of it. -/
theorem symbol_of_sextet? {c : Char} {n : Nat} (h : sextet? c = some n) :
    n < 64 ∧ symbol n = c := by
  have hself : Char.ofNat c.toNat = c := Char.ofNat_toNat c
  -- The letters and digits are runs of characters, each moved to a run of numbers.
  simp only [sextet?] at h
  split at h
  · next hrange =>
    simp only [Bool.and_eq_true, decide_eq_true_eq] at hrange
    cases h
    refine ⟨by omega, ?_⟩
    rw [symbol, if_pos (by omega), show 65 + (c.toNat - 65) = c.toNat by omega, hself]
  · split at h
    · next hrange =>
      simp only [Bool.and_eq_true, decide_eq_true_eq] at hrange
      cases h
      refine ⟨by omega, ?_⟩
      rw [symbol, if_neg (by omega), if_pos (by omega),
        show 71 + (c.toNat - 71) = c.toNat by omega, hself]
    · split at h
      · next hrange =>
        simp only [Bool.and_eq_true, decide_eq_true_eq] at hrange
        cases h
        refine ⟨by omega, ?_⟩
        rw [symbol, if_neg (by omega), if_neg (by omega), if_pos (by omega),
          show c.toNat + 4 - 4 = c.toNat by omega, hself]
      · split at h
        · next heq =>
          cases h
          exact ⟨by decide, heq.symm⟩
        · split at h
          · next heq =>
            cases h
            exact ⟨by decide, heq.symm⟩
          · cases h

/-! ## Groups -/

/-- A byte is read back from its number. -/
theorem ofNat_of_eq_toNat {a : UInt8} {n : Nat} (h : n = a.toNat) : UInt8.ofNat n = a := by
  rw [h, UInt8.ofNat_toNat]

theorem toNat_ofNat_of_lt {n : Nat} (h : n < 256) : (UInt8.ofNat n).toNat = n :=
  UInt8.toNat_ofNat_of_lt' h

/-- What was written is read back. -/
theorem decodeChars?_encodeChars (bytes : List UInt8) :
    decodeChars? (encodeChars bytes) = some bytes := by
  fun_induction encodeChars bytes with
  | case1 => rfl
  | case2 a n =>
    have ha := a.toNat_lt
    have hdigits : n / 64 * 64 + n % 64 = n := by omega
    rw [decodeChars?, sextet?_symbol (by omega), sextet?_symbol (by omega)]
    simp only [Option.bind_eq_bind, Option.bind_some, hdigits]
    rw [if_pos (by omega), ofNat_of_eq_toNat (a := a) (by omega)]
    rfl
  | case3 a b n =>
    have ha := a.toNat_lt
    have hb := b.toNat_lt
    have hdigits : (n / 4096 * 64 + n / 64 % 64) * 64 + n % 64 = n := by omega
    -- The third symbol is no padding, so the text is not taken for that of one byte.
    have hthird : symbol (n % 64) ≠ '=' := symbol_ne_padding (by omega)
    rw [decodeChars?.eq_3 _ _ _ hthird, sextet?_symbol (by omega), sextet?_symbol (by omega),
      sextet?_symbol (by omega)]
    simp only [Option.bind_eq_bind, Option.bind_some, hdigits]
    rw [if_pos (by omega), ofNat_of_eq_toNat (a := a) (by omega),
      ofNat_of_eq_toNat (a := b) (by omega)]
    rfl
  | case4 a b c rest n ih =>
    have ha := a.toNat_lt
    have hb := b.toNat_lt
    have hc := c.toNat_lt
    have hdigits :
        ((n / 262144 * 64 + n / 4096 % 64) * 64 + n / 64 % 64) * 64 + n % 64 = n := by omega
    have hlast : symbol (n % 64) ≠ '=' := symbol_ne_padding (by omega)
    rw [decodeChars?.eq_4 _ _ _ _ _ (fun _ hpad _ => hlast hpad) (fun hpad _ => hlast hpad),
      sextet?_symbol (by omega), sextet?_symbol (by omega), sextet?_symbol (by omega),
      sextet?_symbol (by omega), ih]
    simp only [Option.bind_eq_bind, Option.bind_some, hdigits]
    rw [ofNat_of_eq_toNat (a := a) (by omega), ofNat_of_eq_toNat (a := b) (by omega),
      ofNat_of_eq_toNat (a := c) (by omega)]
    rfl

/-- What is read is written in no other way. -/
theorem encodeChars_of_decodeChars? {cs : List Char} {bytes : List UInt8}
    (h : decodeChars? cs = some bytes) : encodeChars bytes = cs := by
  fun_induction decodeChars? cs generalizing bytes with
  | case1 =>
    cases h
    rfl
  | case2 a b =>
    simp only [Option.bind_eq_bind, Option.bind_eq_some_iff] at h
    obtain ⟨x, hx, y, hy, h⟩ := h
    obtain ⟨hx, rfl⟩ := symbol_of_sextet? hx
    obtain ⟨hy, rfl⟩ := symbol_of_sextet? hy
    split at h
    · next hzero =>
      cases h
      have hbyte : (UInt8.ofNat ((x * 64 + y) / 16)).toNat * 16 = x * 64 + y := by
        rw [toNat_ofNat_of_lt (by omega)]
        omega
      simp only [encodeChars, hbyte]
      rw [show (x * 64 + y) / 64 = x by omega, show (x * 64 + y) % 64 = y by omega]
    · cases h
  | case3 a b c =>
    simp only [Option.bind_eq_bind, Option.bind_eq_some_iff] at h
    obtain ⟨x, hx, y, hy, z, hz, h⟩ := h
    obtain ⟨hx, rfl⟩ := symbol_of_sextet? hx
    obtain ⟨hy, rfl⟩ := symbol_of_sextet? hy
    obtain ⟨hz, rfl⟩ := symbol_of_sextet? hz
    split at h
    · next hzero =>
      cases h
      have hbytes : ((UInt8.ofNat (((x * 64 + y) * 64 + z) / 1024)).toNat * 256 +
          (UInt8.ofNat (((x * 64 + y) * 64 + z) / 4 % 256)).toNat) * 4 = (x * 64 + y) * 64 + z := by
        rw [toNat_ofNat_of_lt (by omega), toNat_ofNat_of_lt (by omega)]
        omega
      simp only [encodeChars, hbytes]
      rw [show ((x * 64 + y) * 64 + z) / 4096 = x by omega,
        show ((x * 64 + y) * 64 + z) / 64 % 64 = y by omega,
        show ((x * 64 + y) * 64 + z) % 64 = z by omega]
    · cases h
  | case4 a b c d rest _ _ ih =>
    simp only [Option.bind_eq_bind, Option.bind_eq_some_iff] at h
    obtain ⟨x, hx, y, hy, z, hz, w, hw, others, hothers, h⟩ := h
    obtain ⟨hx, rfl⟩ := symbol_of_sextet? hx
    obtain ⟨hy, rfl⟩ := symbol_of_sextet? hy
    obtain ⟨hz, rfl⟩ := symbol_of_sextet? hz
    obtain ⟨hw, rfl⟩ := symbol_of_sextet? hw
    cases h
    have hbytes : ((UInt8.ofNat ((((x * 64 + y) * 64 + z) * 64 + w) / 65536)).toNat * 256 +
        (UInt8.ofNat ((((x * 64 + y) * 64 + z) * 64 + w) / 256 % 256)).toNat) * 256 +
        (UInt8.ofNat ((((x * 64 + y) * 64 + z) * 64 + w) % 256)).toNat =
          ((x * 64 + y) * 64 + z) * 64 + w := by
      rw [toNat_ofNat_of_lt (by omega), toNat_ofNat_of_lt (by omega),
        toNat_ofNat_of_lt (by omega)]
      omega
    simp only [encodeChars, hbytes, ih hothers]
    rw [show (((x * 64 + y) * 64 + z) * 64 + w) / 262144 = x by omega,
      show (((x * 64 + y) * 64 + z) * 64 + w) / 4096 % 64 = y by omega,
      show (((x * 64 + y) * 64 + z) * 64 + w) / 64 % 64 = z by omega,
      show (((x * 64 + y) * 64 + z) * 64 + w) % 64 = w by omega]
  | case5 => cases h

/-- **A text is read as some bytes exactly when it is the text of them.** -/
theorem decode?_eq_some_iff {s : String} {bytes : List UInt8} :
    decode? s = some bytes ↔ encode bytes = s := by
  constructor
  · intro h
    rw [encode, encodeChars_of_decodeChars? h, String.ofList_toList]
  · rintro rfl
    rw [decode?, encode, String.toList_ofList, decodeChars?_encodeChars]

end DocExpr.Base64
