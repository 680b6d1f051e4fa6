import DocExpr.Proofs.Validation
import Mathlib.Data.List.Lex
import Mathlib.Tactic.SplitIfs

/-!
# Scanning the bytes of expressions

A store sees the bytes of an expression and not its characters.  A scan that goes through the bytes,
and knows no more than the bytes of sigils and of token characters, still finds the references of
the text: the bytes of all other characters are different from those, so every stretch that it takes
starts and ends between two characters.

What the references are is said without a scan by `Mentions`.  The check of a request compares them
with the declared placeholders, and of several faults it reports the first in the order of bytes,
which is the order of texts as well.

## Main definitions

* `octets`: the bytes of a text
* `Mentions`: what a text refers to
* `stretches`: the stretches of bytes that a scan takes for references
* `Verdict`: what the check says of the placeholders that are mentioned and declared

## Main results

* `mem_references_iff`: the references of a text are what it mentions
* `forall₂_spells_stretches`: the scan of the bytes takes the references
* `lex_octets`: the order of texts is that of their bytes
* `checkPlaceholders_exact`: the references of texts and the verdict on them
-/

namespace DocExpr

/-! ## What a text mentions -/

/-- Somewhere in the text there are a sigil and token characters behind it, at least one, and no
token character comes next. -/
def Mentions (text placeholder : String) : Prop :=
  ∃ before sigil token after, text.toList = before ++ sigil :: (token ++ after) ∧
    isSigil sigil ∧ token ≠ [] ∧ (∀ c ∈ token, isTokenChar c) ∧ closes after ∧
    placeholder = String.ofList (sigil :: token)

/-- Behind the longest run of token characters there is no token character. -/
theorem closes_dropWhile (text : List Char) : closes (text.dropWhile isTokenChar) := by
  rw [closes, Option.all_eq_true]
  intro c hc
  have hne : text.dropWhile isTokenChar ≠ [] := by
    intro hnil
    rw [hnil] at hc
    cases hc
  have hhead := List.head_dropWhile_not isTokenChar hne
  rw [List.head?_eq_some_head hne, Option.some.injEq] at hc
  rw [← hc, hhead]
  rfl

/-- What stands at the end of a text is met by a reader of the whole. -/
theorem mem_references_append (before : List Char) {text : List Char} {placeholder : String}
    (h : placeholder ∈ references text) : placeholder ∈ references (before ++ text) := by
  induction before with
  | nil => exact h
  | cons c before ih =>
    rw [List.cons_append, references]
    split
    · exact List.mem_cons_of_mem _ ih
    · exact ih

/-- **The references of a text are what it mentions.** -/
theorem mem_references_iff {text placeholder : String} :
    placeholder ∈ references text.toList ↔ Mentions text placeholder := by
  constructor
  · intro h
    rw [Mentions]
    generalize text.toList = text at h
    rw [references_eq_lex] at h
    fun_induction lex text with
    | case1 => cases h
    | case2 c rest hc ih =>
      obtain rfl | h := List.mem_cons.mp h
      · refine ⟨[], c, rest.takeWhile isTokenChar, rest.dropWhile isTokenChar, ?_, hc.1, hc.2,
          fun _ => List.mem_takeWhile_imp, closes_dropWhile rest, rfl⟩
        rw [List.takeWhile_append_dropWhile, List.nil_append]
      · obtain ⟨before, sigil, token, after, hrest, hmentions⟩ := ih h
        refine ⟨c :: (rest.takeWhile isTokenChar ++ before), sigil, token, after, ?_, hmentions⟩
        rw [List.cons_append, List.append_assoc, ← hrest, List.takeWhile_append_dropWhile]
    | case3 c rest hc ih =>
      obtain ⟨before, sigil, token, after, rfl, hmentions⟩ := ih h
      exact ⟨c :: before, sigil, token, after, rfl, hmentions⟩
  · rintro ⟨before, sigil, token, after, htext, hsigil, hne, htoken, hcloses, rfl⟩
    rw [htext]
    apply mem_references_append
    have htake : (token ++ after).takeWhile isTokenChar = token := by
      rw [List.takeWhile_append_of_pos htoken, takeWhile_eq_nil_of_closes hcloses, List.append_nil]
    rw [references_eq_lex, lex_cons_reference hsigil (htake.symm ▸ hne), htake]
    exact List.mem_cons_self ..

/-- Bare sigils are none, a sigil ends a token, and so does a letter that is not ASCII. -/
example : references "#é:#A:B# A#_ß".toList = ["#A", ":B", "#_"] := by decide

/-! ## Bytes -/

/-- The bytes of characters. -/
def utf8 (text : List Char) : List UInt8 := text.flatMap String.utf8EncodeChar

/-- The bytes of a text. -/
def octets (text : String) : List UInt8 := text.toUTF8.data.toList

theorem octets_eq_utf8 (text : String) : octets text = utf8 text.toList := by
  rw [octets, String.toUTF8_eq_toByteArray]
  conv => lhs; rw [← String.ofList_toList (s := text), String.toByteArray_ofList]
  rw [List.utf8Encode, List.data_toByteArray, utf8]

@[simp] theorem utf8_nil : utf8 [] = [] := rfl

theorem utf8_cons (c : Char) (text : List Char) :
    utf8 (c :: text) = String.utf8EncodeChar c ++ utf8 text := rfl

theorem utf8_append (text later : List Char) :
    utf8 (text ++ later) = utf8 text ++ utf8 later := List.flatMap_append

/-- The bytes of sigils. -/
def isSigilByte (byte : UInt8) : Bool := byte = 35 || byte = 58

/-- The bytes of token characters: letters, digits and the underscore. -/
def isTokenByte (byte : UInt8) : Bool :=
  (65 ≤ byte && byte ≤ 90) || (97 ≤ byte && byte ≤ 122) || (48 ≤ byte && byte ≤ 57) || byte = 95

/-- The byte of an ASCII character tells what it is. -/
theorem isTokenByte_of_lt {c : Char} (h : c.toNat < 128) :
    isSigilByte (UInt8.ofNat c.toNat) = isSigil c ∧
      isTokenByte (UInt8.ofNat c.toNat) = isTokenChar c := by
  have hall : ∀ n < 128, isSigilByte (UInt8.ofNat n) = isSigil (Char.ofNat n) ∧
      isTokenByte (UInt8.ofNat n) = isTokenChar (Char.ofNat n) := by
    decide
  have hchar := hall c.toNat h
  rwa [Char.ofNat_toNat] at hchar

/-- A character that is not ASCII is neither a sigil nor a token character. -/
theorem isTokenChar_of_le {c : Char} (h : 128 ≤ c.toNat) :
    isSigil c = false ∧ isTokenChar c = false := by
  have hne : ∀ d : Char, d.toNat < 128 → c ≠ d := by
    rintro d hd rfl
    omega
  have hsigil : isSigil c = false := by
    simp [isSigil, hne '#' (by decide), hne ':' (by decide)]
  have htoken : isTokenChar c = false := by
    rw [Bool.eq_false_iff]
    intro htoken
    have hlt := toNat_lt_of_isTokenChar htoken
    omega
  exact ⟨hsigil, htoken⟩

/-- The bytes above ASCII are those of no sigil and no token character. -/
theorem isTokenByte_of_le {byte : UInt8} (h : 128 ≤ byte.toNat) :
    isSigilByte byte = false ∧ isTokenByte byte = false := by
  have hne : ∀ ascii : UInt8, ascii.toNat < 128 → byte ≠ ascii := by
    rintro ascii hlt rfl
    omega
  have hsigil : isSigilByte byte = false := by
    simp [isSigilByte, hne 35 (by decide), hne 58 (by decide)]
  have htoken : isTokenByte byte = false := by
    simp only [isTokenByte, Bool.or_eq_false_iff, Bool.and_eq_false_iff, decide_eq_false_iff_not,
      UInt8.le_iff_toNat_le]
    have hlast : (90 : UInt8).toNat < 128 ∧ (122 : UInt8).toNat < 128 ∧
        (57 : UInt8).toNat < 128 := by decide
    refine ⟨⟨⟨?_, ?_⟩, ?_⟩, hne 95 (by decide)⟩ <;> omega
  exact ⟨hsigil, htoken⟩

/-- A character that is not ASCII has bytes above ASCII only. -/
theorem le_of_mem_utf8EncodeChar {c : Char} (h : 128 ≤ c.toNat) :
    ∀ byte ∈ String.utf8EncodeChar c, 128 ≤ byte.toNat := by
  have hval : c.val.toNat = c.toNat := rfl
  have hlow : ¬c.toNat ≤ 127 := by omega
  simp only [String.utf8EncodeChar, hval, if_neg hlow]
  split
  · simp
    omega
  · split <;> simp <;> omega

/-- The stretches of bytes that a scan takes for references, each with its start and its stop.  The
first byte is at `position`. -/
def stretches (position : Nat) : List UInt8 → List (Nat × Nat)
  | [] => []
  | byte :: rest =>
    if isSigilByte byte then
      let stop := position + 1 + (rest.takeWhile isTokenByte).length
      if position + 1 < stop then (position, stop) :: stretches stop (rest.dropWhile isTokenByte)
      else stretches stop (rest.dropWhile isTokenByte)
    else stretches (position + 1) rest
termination_by bytes => bytes.length
decreasing_by
  · exact Nat.lt_succ_of_le (List.length_dropWhile_le ..)
  · exact Nat.lt_succ_of_le (List.length_dropWhile_le ..)
  · exact Nat.lt_succ_self _

/-! ## The scan of bytes -/

theorem utf8EncodeChar_of_lt {c : Char} (h : c.toNat < 128) :
    String.utf8EncodeChar c = [UInt8.ofNat c.toNat] := by
  have hlow : c.val.toNat ≤ 127 := Nat.le_of_lt_succ h
  simp only [String.utf8EncodeChar, if_pos hlow]
  rfl

theorem utf8EncodeChar_ne_nil (c : Char) : String.utf8EncodeChar c ≠ [] := by
  simp only [String.utf8EncodeChar]
  repeat' split
  all_goals exact List.cons_ne_nil _ _

/-- **The first byte of a character tells what it is**, and no other byte is that of a sigil. -/
theorem exists_utf8EncodeChar (c : Char) : ∃ byte bytes, String.utf8EncodeChar c = byte :: bytes ∧
    isSigilByte byte = isSigil c ∧ isTokenByte byte = isTokenChar c ∧
    (isSigil c ∨ isTokenChar c → bytes = []) ∧ ∀ later ∈ bytes, isSigilByte later = false := by
  by_cases hascii : c.toNat < 128
  · obtain ⟨hsigil, htoken⟩ := isTokenByte_of_lt hascii
    exact ⟨_, [], utf8EncodeChar_of_lt hascii, hsigil, htoken, fun _ => rfl, List.forall_mem_nil _⟩
  · rw [Nat.not_lt] at hascii
    obtain ⟨hsigil, htoken⟩ := isTokenChar_of_le hascii
    have hhigh := le_of_mem_utf8EncodeChar hascii
    cases hbytes : String.utf8EncodeChar c with
    | nil => exact absurd hbytes (utf8EncodeChar_ne_nil c)
    | cons byte bytes =>
      rw [hbytes] at hhigh
      obtain ⟨hbyte, hlater⟩ := List.forall_mem_cons.mp hhigh
      refine ⟨byte, bytes, rfl, ?_, ?_, ?_, fun later hmem => (isTokenByte_of_le (hlater _ hmem)).1⟩
      · rw [hsigil, (isTokenByte_of_le hbyte).1]
      · rw [htoken, (isTokenByte_of_le hbyte).2]
      · simp [hsigil, htoken]

theorem utf8_ne_nil {text : List Char} (h : text ≠ []) : utf8 text ≠ [] := by
  obtain ⟨c, rest, rfl⟩ := List.exists_cons_of_ne_nil h
  rw [utf8_cons]
  exact List.append_ne_nil_of_left_ne_nil (utf8EncodeChar_ne_nil c) _

/-- The bytes of a run of token characters are a run of bytes. -/
theorem span_utf8 (text : List Char) :
    (utf8 text).takeWhile isTokenByte = utf8 (text.takeWhile isTokenChar) ∧
      (utf8 text).dropWhile isTokenByte = utf8 (text.dropWhile isTokenChar) := by
  induction text with
  | nil => exact ⟨rfl, rfl⟩
  | cons c rest ih =>
    obtain ⟨byte, bytes, hbytes, -, hbyte, halone, -⟩ := exists_utf8EncodeChar c
    rw [utf8_cons, hbytes, List.cons_append, List.takeWhile_cons, List.dropWhile_cons,
      List.takeWhile_cons, List.dropWhile_cons, hbyte]
    cases htoken : isTokenChar c with
    | true =>
      obtain rfl := halone (.inr htoken)
      simp [utf8_cons, hbytes, ih]
    | false => simp [utf8_cons, hbytes]

/-- The scan passes bytes that are no sigils. -/
theorem stretches_append (position : Nat) {bytes : List UInt8}
    (h : ∀ byte ∈ bytes, isSigilByte byte = false) (rest : List UInt8) :
    stretches position (bytes ++ rest) = stretches (position + bytes.length) rest := by
  induction bytes generalizing position with
  | nil => rfl
  | cons byte bytes ih =>
    obtain ⟨hbyte, hbytes⟩ := List.forall_mem_cons.mp h
    rw [List.cons_append, stretches, hbyte, if_neg Bool.false_ne_true, ih _ hbytes,
      List.length_cons, Nat.add_assoc, Nat.add_comm 1]

/-- The scan passes a character at which no reference starts. -/
theorem stretches_utf8_char (position : Nat) {c : Char} {rest : List Char}
    (h : ¬(isSigil c ∧ rest.takeWhile isTokenChar ≠ [])) :
    stretches position (utf8 (c :: rest)) =
      stretches (position + (String.utf8EncodeChar c).length) (utf8 rest) := by
  obtain ⟨byte, bytes, hbytes, hbyte, -, halone, hlater⟩ := exists_utf8EncodeChar c
  rw [utf8_cons, hbytes]
  cases hsigil : isSigil c with
  | false => exact stretches_append _ (List.forall_mem_cons.mpr ⟨hbyte.trans hsigil, hlater⟩) _
  | true =>
    obtain rfl := halone (.inl hsigil)
    -- A bare sigil has an empty run behind it.
    have hrun : rest.takeWhile isTokenChar = [] := not_not.mp fun hne => h ⟨hsigil, hne⟩
    have hrest : rest.dropWhile isTokenChar = rest := by
      have hsplit := List.takeWhile_append_dropWhile (p := isTokenChar) (l := rest)
      rwa [hrun, List.nil_append] at hsplit
    rw [List.singleton_append, stretches, if_pos (hbyte.trans hsigil), (span_utf8 rest).1,
      (span_utf8 rest).2, hrun, hrest]
    exact if_neg (Nat.lt_irrefl _)

/-- The scan takes a reference as a whole. -/
theorem stretches_utf8_reference (position : Nat) {c : Char} {rest : List Char}
    (hsigil : isSigil c) (hne : rest.takeWhile isTokenChar ≠ []) :
    let stop := position + (utf8 (c :: rest.takeWhile isTokenChar)).length
    stretches position (utf8 (c :: rest)) =
      (position, stop) :: stretches stop (utf8 (rest.dropWhile isTokenChar)) := by
  obtain ⟨byte, bytes, hbytes, hbyte, -, halone, -⟩ := exists_utf8EncodeChar c
  obtain rfl := halone (.inl hsigil)
  have hpos : 0 < (utf8 (rest.takeWhile isTokenChar)).length :=
    List.length_pos_iff.mpr (utf8_ne_nil hne)
  rw [utf8_cons, utf8_cons, hbytes, List.singleton_append, List.singleton_append, stretches,
    if_pos (hbyte.trans hsigil), (span_utf8 rest).1, (span_utf8 rest).2, List.length_cons,
    ← Nat.add_assoc, Nat.add_right_comm position _ 1]
  exact if_pos (Nat.lt_add_of_pos_right hpos)

/-- A stretch of the bytes of a text spells a reference: it starts and stops between two characters,
and the characters from its start to its stop are those of the reference. -/
def Spells (text : List Char) (stretch : Nat × Nat) (reference : String) : Prop :=
  ∃ before after, text = before ++ reference.toList ++ after ∧
    stretch = ((utf8 before).length, (utf8 (before ++ reference.toList)).length)

/-- **The scan of the bytes takes the references**, one after the other, whatever stands before. -/
theorem forall₂_spells_stretches (before text : List Char) :
    List.Forall₂ (Spells (before ++ text))
      (stretches (utf8 before).length (utf8 text)) (references text) := by
  rw [references_eq_lex]
  fun_induction lex text generalizing before with
  | case1 =>
    rw [utf8_nil, stretches]
    exact .nil
  | case2 c rest hc ih =>
    have hstop : (utf8 before).length + (utf8 (c :: rest.takeWhile isTokenChar)).length =
        (utf8 (before ++ c :: rest.takeWhile isTokenChar)).length := by
      rw [utf8_append, List.length_append]
    have hsplit : before ++ c :: rest =
        before ++ c :: rest.takeWhile isTokenChar ++ rest.dropWhile isTokenChar := by
      rw [List.append_assoc, List.cons_append, List.takeWhile_append_dropWhile]
    rw [stretches_utf8_reference _ hc.1 hc.2, hstop]
    refine .cons ⟨before, rest.dropWhile isTokenChar, ?_, ?_⟩ ?_
    · rw [String.toList_ofList, hsplit]
    · rw [String.toList_ofList]
    · rw [hsplit]
      exact ih _
  | case3 c rest hc ih =>
    have hnext := ih (before ++ [c])
    rw [utf8_append, List.length_append, List.append_assoc, List.singleton_append] at hnext
    rw [stretches_utf8_char _ hc]
    rwa [utf8_cons c [], utf8_nil, List.append_nil] at hnext

/-! ## The order of bytes -/

/-- A byte that is less decides, and one that is the same leaves it to the bytes behind. -/
theorem lex_ofNat {a b : Nat} (hb : b < 256) (hle : a ≤ b) {rest rest' : List UInt8}
    (hrest : a = b → List.Lex (· < ·) rest rest') :
    List.Lex (· < ·) (UInt8.ofNat a :: rest) (UInt8.ofNat b :: rest') := by
  obtain hlt | rfl := Nat.lt_or_eq_of_le hle
  · refine .rel (UInt8.lt_iff_toNat_lt.mpr ?_)
    rwa [UInt8.toNat_ofNat_of_lt' (Nat.lt_trans hlt hb), UInt8.toNat_ofNat_of_lt' hb]
  · exact .cons (hrest rfl)

/-- The first byte in which two characters differ tells which is less, whatever comes behind. -/
theorem lex_utf8EncodeChar {c d : Char} (h : c < d) (rest rest' : List UInt8) :
    List.Lex (· < ·) (String.utf8EncodeChar c ++ rest) (String.utf8EncodeChar d ++ rest') := by
  have hlt : c.val.toNat < d.val.toNat := UInt32.lt_iff_toNat_lt.mp h
  have hmax : d.val.toNat < 1114112 := by
    have hvalid : d.val.toNat < 55296 ∨ 57343 < d.val.toNat ∧ d.val.toNat < 1114112 := d.valid
    omega
  simp only [String.utf8EncodeChar]
  -- More bytes are announced by a greater first byte; as many bytes are digits of the number.
  split_ifs
  all_goals simp only [List.cons_append, List.nil_append]
  all_goals
    repeat refine lex_ofNat (by omega) (by omega) fun _ => ?_
  all_goals omega

/-- **The order of texts is that of their bytes.** -/
theorem lex_utf8 {text other : List Char} (h : List.Lex (· < ·) text other) :
    List.Lex (· < ·) (utf8 text) (utf8 other) := by
  induction h with
  | @nil c rest =>
    obtain ⟨byte, bytes, hbytes, -⟩ := exists_utf8EncodeChar c
    rw [utf8_cons, hbytes]
    exact .nil
  | rel hlt => exact lex_utf8EncodeChar hlt _ _
  | cons _ ih => exact List.Lex.append_left (· < ·) ih _

/-- Of two texts the one that is less comes first byte by byte. -/
theorem lex_octets {text other : String} (hle : text ≤ other) (hne : text ≠ other) :
    List.Lex (· < ·) (octets text) (octets other) := by
  have hlt : text < other := by
    by_contra hnot
    exact hne (String.le_antisymm hle (String.not_lt.mp hnot))
  rw [octets_eq_utf8, octets_eq_utf8]
  exact lex_utf8 (List.lex_lt.mpr hlt)

/-! ## The verdict -/

/-- Of the texts with a property this one comes first, byte by byte. -/
def IsFirst (P : String → Prop) (text : String) : Prop :=
  P text ∧ ∀ other, P other → other ≠ text → List.Lex (· < ·) (octets text) (octets other)

/-- Only one text comes first. -/
theorem IsFirst.unique {P : String → Prop} {text other : String} (h : IsFirst P text)
    (h' : IsFirst P other) : text = other := by
  by_contra hne
  exact Std.Asymm.asymm _ _ (h.2 other h'.1 (Ne.symm hne)) (h'.2 text h.1 hne)

theorem Ordered.le_of_least? {texts : List String} {text : String}
    (h : Ordered.least? texts = some text) : text ∈ texts ∧ ∀ other ∈ texts, text ≤ other := by
  induction texts generalizing text with
  | nil => cases h
  | cons first rest ih =>
    rw [Ordered.least?] at h
    split at h
    · next hnone =>
      cases h
      rw [(Ordered.least?_eq_none_iff rest).mp hnone]
      exact ⟨List.mem_singleton_self _, List.forall_mem_singleton.mpr (String.le_refl _)⟩
    · next least hleast =>
      obtain ⟨hmem, hle⟩ := ih hleast
      split at h
      · next hlt =>
        cases h
        exact ⟨List.mem_cons_of_mem _ hmem,
          List.forall_mem_cons.mpr ⟨String.not_lt.mp (String.lt_asymm hlt), hle⟩⟩
      · next hnot =>
        cases h
        have hfirst := String.not_lt.mp hnot
        exact ⟨List.mem_cons_self .., List.forall_mem_cons.mpr
          ⟨String.le_refl _, fun other hother => String.le_trans hfirst (hle other hother)⟩⟩

/-- The least member of a list comes first among its members. -/
theorem isFirst_of_least? {P : String → Prop} {texts : List String} {text : String}
    (hiff : ∀ other, other ∈ texts ↔ P other) (h : Ordered.least? texts = some text) :
    IsFirst P text := by
  obtain ⟨hmem, hle⟩ := Ordered.le_of_least? h
  refine ⟨(hiff text).mp hmem, fun other hother hne => ?_⟩
  exact lex_octets (hle other ((hiff other).mpr hother)) (Ne.symm hne)

/-- Where there is no least member, nothing has the property. -/
theorem not_of_least? {P : String → Prop} {texts : List String}
    (hiff : ∀ other, other ∈ texts ↔ P other) (h : Ordered.least? texts = none) (text : String) :
    ¬P text := by
  rw [← hiff, (Ordered.least?_eq_none_iff texts).mp h]
  exact List.not_mem_nil

/-- What a check says when some placeholders are mentioned and some declared: the first that is only
mentioned is reported, or else the first that is only declared. -/
inductive Verdict (mentioned declared : String → Prop) : Except ExpressionError Unit → Prop
  | undeclared {placeholder : String} :
    IsFirst (fun other => mentioned other ∧ ¬declared other) placeholder →
      Verdict mentioned declared (.error (.undefinedPlaceholder placeholder))
  | unused {placeholder : String} : (∀ other, mentioned other → declared other) →
    IsFirst (fun other => declared other ∧ ¬mentioned other) placeholder →
      Verdict mentioned declared (.error (.unusedPlaceholder placeholder))
  | exact : (∀ placeholder, mentioned placeholder ↔ declared placeholder) →
    Verdict mentioned declared (.ok ())

/-- There is one verdict. -/
theorem Verdict.unique {mentioned declared : String → Prop}
    {result other : Except ExpressionError Unit} (h : Verdict mentioned declared result)
    (h' : Verdict mentioned declared other) : result = other := by
  cases h with
  | undeclared hfirst =>
    cases h' with
    | undeclared hfirst' => rw [hfirst.unique hfirst']
    | unused hdeclared => exact absurd (hdeclared _ hfirst.1.1) hfirst.1.2
    | exact hexact => exact absurd ((hexact _).mp hfirst.1.1) hfirst.1.2
  | unused hdeclared hfirst =>
    cases h' with
    | undeclared hfirst' => exact absurd (hdeclared _ hfirst'.1.1) hfirst'.1.2
    | unused _ hfirst' => rw [hfirst.unique hfirst']
    | exact hexact => exact absurd ((hexact _).mpr hfirst.1.1) hfirst.1.2
  | exact hexact =>
    cases h' with
    | undeclared hfirst' => exact absurd ((hexact _).mp hfirst'.1.1) hfirst'.1.2
    | unused _ hfirst' => exact absurd ((hexact _).mpr hfirst'.1.1) hfirst'.1.2
    | exact => rfl

/-- The check gives a verdict. -/
theorem verdict_checkPlaceholders (expressions : List String) (names : Dict String)
    (values : Dict AttributeValue) :
    Verdict (fun placeholder => ∃ expression ∈ expressions, Mentions expression placeholder)
      (fun placeholder => placeholder ∈ names.keys ∨ placeholder ∈ values.keys)
      (checkPlaceholders expressions names values) := by
  have hmentioned : ∀ placeholder,
      (placeholder ∈ expressions.flatMap fun expression => references expression.toList) ↔
        ∃ expression ∈ expressions, Mentions expression placeholder := by
    intro placeholder
    simp only [List.mem_flatMap, mem_references_iff]
  dsimp only [checkPlaceholders]
  generalize (expressions.flatMap fun expression => references expression.toList) = mentioned
    at hmentioned
  simp only [← hmentioned]
  have hundeclared : ∀ placeholder, placeholder ∈ (mentioned.filter fun placeholder =>
      !names.contains placeholder && !values.contains placeholder) ↔
        placeholder ∈ mentioned ∧ ¬(placeholder ∈ names.keys ∨ placeholder ∈ values.keys) := by
    intro placeholder
    rw [List.mem_filter, ← Dict.contains_iff, ← Dict.contains_iff]
    simp
  have hunused : ∀ placeholder, placeholder ∈ ((names.keys ++ values.keys).filter
      fun placeholder => placeholder ∉ mentioned) ↔
        (placeholder ∈ names.keys ∨ placeholder ∈ values.keys) ∧ placeholder ∉ mentioned := by
    intro placeholder
    rw [List.mem_filter, List.mem_append, decide_eq_true_eq]
  split
  · next least hleast => exact .undeclared (isFirst_of_least? hundeclared hleast)
  · next hnone =>
    have hdeclared : ∀ placeholder ∈ mentioned,
        placeholder ∈ names.keys ∨ placeholder ∈ values.keys := fun placeholder hmem =>
      by_contra fun hnot => not_of_least? hundeclared hnone placeholder ⟨hmem, hnot⟩
    split
    · next least hleast => exact .unused hdeclared (isFirst_of_least? hunused hleast)
    · next hnone' =>
      refine .exact fun placeholder => ⟨hdeclared placeholder, fun hmem => ?_⟩
      exact by_contra fun hnot => not_of_least? hunused hnone' placeholder ⟨hmem, hnot⟩

/-- **The scan and the verdict of the check are exact.**  In any text, the stretches that a scan of
the bytes takes spell the references, one after the other, and a text is a reference exactly when
it is mentioned.  The check of some texts against the declared placeholders gives the one verdict
there is on what they mention. -/
theorem checkPlaceholders_exact (expressions : List String) (names : Dict String)
    (values : Dict AttributeValue) :
    (∀ text : String, List.Forall₂ (Spells text.toList) (stretches 0 (octets text))
      (references text.toList)) ∧
    (∀ text placeholder, placeholder ∈ references text.toList ↔ Mentions text placeholder) ∧
    ∀ result, checkPlaceholders expressions names values = result ↔
      Verdict (fun placeholder => ∃ expression ∈ expressions, Mentions expression placeholder)
        (fun placeholder => placeholder ∈ names.keys ∨ placeholder ∈ values.keys) result := by
  refine ⟨fun text => ?_, fun _ _ => mem_references_iff, fun result => ⟨?_, fun h => ?_⟩⟩
  · rw [octets_eq_utf8]
    exact forall₂_spells_stretches [] text.toList
  · rintro rfl
    exact verdict_checkPlaceholders expressions names values
  · exact (verdict_checkPlaceholders expressions names values).unique h

end DocExpr
