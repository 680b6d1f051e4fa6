import DocExpr.Placeholder.Reference
import Mathlib.Data.List.TakeWhile

/-!
# Reading the text of an expression

A reader of an expression goes through it from left to right.  Behind a sigil it takes the longest
run of token characters, and the two together are one reference; every other character stands for
itself.  `lex` is that reader, and `references` are the references it meets.

The longest run is what makes composition delicate: in `#A` followed by `B` a reader meets one
reference, not one and a letter.  Two texts are read one after the other when they are *separated*:
the second does not start with a token character, or the first does not end within a reference.

## Main definitions

* `lex`: the lexemes of a text
* `Separated`: what keeps two texts apart
* `Plain`, `opens`, `closes`: texts between which references may stand

## Main results

* `lex_append`: separated texts are read one after the other
* `references_eq_lex`: the references of a text are those among its lexemes
-/

namespace DocExpr

/-- What a reader takes from an expression at once. -/
inductive Lexeme where
  | char (c : Char)
  | reference (placeholder : String)
  deriving DecidableEq, Repr

/-- The placeholder of a reference. -/
def Lexeme.placeholder? : Lexeme → Option String
  | char _ => none
  | reference placeholder => some placeholder

/-- The lexemes of a text: behind a sigil, the longest run of token characters is taken with it. -/
def lex : List Char → List Lexeme
  | [] => []
  | c :: rest =>
    if isSigil c ∧ rest.takeWhile isTokenChar ≠ [] then
      .reference (String.ofList (c :: rest.takeWhile isTokenChar)) ::
        lex (rest.dropWhile isTokenChar)
    else .char c :: lex rest
termination_by text => text.length
decreasing_by
  · exact Nat.lt_succ_of_le (List.length_dropWhile_le ..)
  · exact Nat.lt_succ_self _

@[simp] theorem lex_nil : lex [] = [] := by rw [lex]

theorem lex_cons_char {c : Char} {rest : List Char}
    (h : ¬ (isSigil c ∧ rest.takeWhile isTokenChar ≠ [])) :
    lex (c :: rest) = .char c :: lex rest := by
  rw [lex, if_neg h]

theorem lex_cons_reference {c : Char} {rest : List Char} (hc : isSigil c)
    (ht : rest.takeWhile isTokenChar ≠ []) :
    lex (c :: rest) = .reference (String.ofList (c :: rest.takeWhile isTokenChar)) ::
      lex (rest.dropWhile isTokenChar) := by
  rw [lex, if_pos ⟨hc, ht⟩]

/-- A token character is no sigil. -/
theorem isSigil_of_isTokenChar {c : Char} (h : isTokenChar c) : isSigil c = false := by
  cases hs : isSigil c with
  | false => rfl
  | true =>
    simp only [isSigil, Bool.or_eq_true, decide_eq_true_eq] at hs
    rcases hs with rfl | rfl <;> exact absurd h (by decide)

/-! ## Texts without references -/

/-- Text in which no sigil occurs. -/
def Plain (text : List Char) : Prop := ∀ c ∈ text, isSigil c = false

instance (text : List Char) : Decidable (Plain text) :=
  decidable_of_iff (text.all fun c => !isSigil c) (by simp [Plain])

theorem lex_plain {text : List Char} (h : Plain text) : lex text = text.map .char := by
  induction text with
  | nil => simp
  | cons c rest ih =>
    obtain ⟨hc, hrest⟩ := List.forall_mem_cons.mp h
    rw [lex_cons_char (by simp [hc]), ih hrest, List.map_cons]

/-! ## Separated texts -/

/-- A text that does not start within a token. -/
def closes (text : List Char) : Bool := text.head?.all fun c => !isTokenChar c

/-- A text that does not end within a reference. -/
def opens (text : List Char) : Bool := text.getLast?.all fun c => !isSigil c && !isTokenChar c

/-- Between two texts no reference is joined. -/
def Separated (a b : List Char) : Prop := closes b ∨ opens a

theorem Separated.of_suffix {a s b : List Char} (h : Separated a b) (hs : s <:+ a) :
    Separated s b := by
  rcases h with h | h
  · exact .inl h
  · rcases List.eq_nil_or_concat s with rfl | ⟨init, last, rfl⟩
    · exact .inr rfl
    · obtain ⟨before, rfl⟩ := hs
      rw [List.concat_eq_append, ← List.append_assoc, opens, List.getLast?_concat] at h
      exact .inr (by simpa [opens] using h)

theorem takeWhile_eq_nil_of_closes {b : List Char} (h : closes b) :
    b.takeWhile isTokenChar = [] := by
  cases b with
  | nil => rfl
  | cons c rest =>
    rw [List.takeWhile_cons, if_neg]
    simpa [closes] using h

theorem dropWhile_eq_self_of_closes {b : List Char} (h : closes b) :
    b.dropWhile isTokenChar = b := by
  cases b with
  | nil => rfl
  | cons c rest =>
    rw [List.dropWhile_cons, if_neg]
    simpa [closes] using h

/-- The run behind a sigil does not reach into a separated text. -/
theorem Separated.span_append {c : Char} {rest b : List Char} (hc : isSigil c)
    (h : Separated (c :: rest) b) :
    (rest ++ b).takeWhile isTokenChar = rest.takeWhile isTokenChar ∧
      (rest ++ b).dropWhile isTokenChar = rest.dropWhile isTokenChar ++ b := by
  by_cases hall : ∀ x ∈ rest, isTokenChar x
  · -- The whole rest belongs to the token, so the first text ends within a reference.
    have hb : closes b := by
      refine h.resolve_right fun hopen => ?_
      rcases List.eq_nil_or_concat rest with rfl | ⟨init, last, rfl⟩
      · simp [opens, hc] at hopen
      · have hlast : isTokenChar last := hall last (by simp)
        rw [List.concat_eq_append, opens, ← List.cons_append, List.getLast?_concat] at hopen
        simp [hlast] at hopen
    rw [List.takeWhile_append_of_pos hall, List.dropWhile_append_of_pos hall,
      takeWhile_eq_nil_of_closes hb, dropWhile_eq_self_of_closes hb]
    refine ⟨?_, ?_⟩
    · rw [List.append_nil, eq_comm, List.takeWhile_eq_self_iff]
      exact hall
    · rw [List.dropWhile_eq_nil_iff.mpr hall, List.nil_append]
  · -- The run ends before the first text does, so the second is not reached.
    have hdrop : rest.dropWhile isTokenChar ≠ [] := fun hnil =>
      hall (List.dropWhile_eq_nil_iff.mp hnil)
    have htake : (rest.takeWhile isTokenChar).length ≠ rest.length := by
      intro heq
      have hlen := congrArg List.length
        (List.takeWhile_append_dropWhile (p := isTokenChar) (l := rest))
      rw [List.length_append, heq] at hlen
      exact hdrop (List.length_eq_zero_iff.mp (by omega))
    rw [List.takeWhile_append, if_neg htake, List.dropWhile_append,
      if_neg (by simpa using hdrop)]
    exact ⟨rfl, rfl⟩

/-- **Separated texts are read one after the other.** -/
theorem lex_append {a b : List Char} (h : Separated a b) : lex (a ++ b) = lex a ++ lex b := by
  fun_induction lex a with
  | case1 => rfl
  | case2 c rest hc ih =>
    obtain ⟨htake, hdrop⟩ := h.span_append hc.1
    have hsuffix : rest.dropWhile isTokenChar <:+ c :: rest :=
      (List.dropWhile_suffix _).trans (List.suffix_cons c rest)
    rw [List.cons_append, lex_cons_reference hc.1 (htake ▸ hc.2), htake, hdrop,
      ih (h.of_suffix hsuffix), List.cons_append]
  | case3 c rest hc ih =>
    -- A character that starts no reference starts none in front of a separated text.
    have hc' : ¬ (isSigil c ∧ (rest ++ b).takeWhile isTokenChar ≠ []) := by
      rintro ⟨hs, ht⟩
      exact hc ⟨hs, (h.span_append hs).1 ▸ ht⟩
    rw [List.cons_append, lex_cons_char hc', ih (h.of_suffix (List.suffix_cons c rest)),
      List.cons_append]

/-! ## References -/

theorem references_append_of_isTokenChar {token : List Char} (h : ∀ c ∈ token, isTokenChar c)
    (rest : List Char) : references (token ++ rest) = references rest := by
  induction token with
  | nil => rfl
  | cons c token ih =>
    obtain ⟨hc, htoken⟩ := List.forall_mem_cons.mp h
    rw [List.cons_append, references, isSigil_of_isTokenChar hc]
    simpa using ih htoken

/-- The references of a text are those that a reader meets. -/
theorem references_eq_lex (text : List Char) :
    references text = (lex text).filterMap Lexeme.placeholder? := by
  have hhead : ∀ rest : List Char, (rest.head?.map isTokenChar).getD false = true ↔
      rest.takeWhile isTokenChar ≠ [] := by
    intro rest
    cases rest with
    | nil => simp
    | cons c rest => cases hc : isTokenChar c <;> simp [hc]
  fun_induction lex text with
  | case1 => rfl
  | case2 c rest hc ih =>
    -- The scan goes on inside the token, where it meets no sigil.
    have hskip : references rest = references (rest.dropWhile isTokenChar) := by
      conv => lhs; rw [← List.takeWhile_append_dropWhile (p := isTokenChar) (l := rest)]
      exact references_append_of_isTokenChar (fun x hx => List.mem_takeWhile_imp hx) _
    rw [references, if_pos (by simp [hc.1, hhead rest, hc.2]), hskip, ih]
    rfl
  | case3 c rest hc ih =>
    rw [references, if_neg (by simpa [hhead rest] using hc), ih]
    rfl

/-- The references of separated texts are those of the two. -/
theorem references_append {a b : List Char} (h : Separated a b) :
    references (a ++ b) = references a ++ references b := by
  simp only [references_eq_lex, lex_append h, List.filterMap_append]

theorem references_plain {text : List Char} (h : Plain text) : references text = [] := by
  rw [references_eq_lex, lex_plain h, List.filterMap_map]
  exact List.filterMap_eq_nil_iff.mpr fun _ _ => rfl

end DocExpr
