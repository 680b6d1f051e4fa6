/-!
# Tokens

Expressions refer to fields and values by placeholders: a sigil, `#` for a name and `:` for a value,
and a *token* of ASCII letters, digits and underscores after it.
-/

namespace DocExpr

/-- The characters of tokens. -/
def isTokenChar (c : Char) : Bool := c.isAlphanum || c = '_'

/-- Token characters are the letters and digits of ASCII and the underscore. -/
theorem isTokenChar_iff (c : Char) :
    isTokenChar c = true ↔
      ('A' ≤ c ∧ c ≤ 'Z') ∨ ('a' ≤ c ∧ c ≤ 'z') ∨ ('0' ≤ c ∧ c ≤ '9') ∨ c = '_' := by
  have hclasses : isTokenChar c =
      (((decide ('A' ≤ c ∧ c ≤ 'Z') || (decide ('a' ≤ c) && decide (c ≤ 'z'))) ||
        (decide ('0' ≤ c) && decide (c ≤ '9'))) || decide (c = '_')) := rfl
  rw [hclasses]
  simp only [Bool.or_eq_true, Bool.and_eq_true, decide_eq_true_eq, or_assoc]

theorem toNat_lt_of_isTokenChar {c : Char} (h : isTokenChar c = true) : c.toNat < 128 := by
  have hle : ∀ last : Char, c ≤ last → c.toNat ≤ last.toNat := fun last hlast => hlast
  rcases (isTokenChar_iff c).mp h with ⟨-, h⟩ | ⟨-, h⟩ | ⟨-, h⟩ | rfl
  · exact Nat.lt_of_le_of_lt (hle 'Z' h) (by decide)
  · exact Nat.lt_of_le_of_lt (hle 'z' h) (by decide)
  · exact Nat.lt_of_le_of_lt (hle '9' h) (by decide)
  · decide

/-- Whether a text can stand behind a sigil. -/
def isToken (s : String) : Bool := !s.isEmpty && s.toList.all isTokenChar

end DocExpr
