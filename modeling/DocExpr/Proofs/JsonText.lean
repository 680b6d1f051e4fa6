import DocExpr.Json.Reader
import DocExpr.Json.Writer
import DocExpr.Proofs.NumberText

/-!
# JSON texts are read back

A tree of closed arrays and objects over strings, integers, flags and nulls is read back from its
text, as long as it is nested no deeper than the reader goes.  Such texts delimit themselves, all
but those of integers, so the reader stops at the end of the tree whatever follows, if only it does
not go on with a number.

The reader's fuel is paid by length: a value takes two units for each of its characters, and the
inside of an array or object one more, which the opening bracket has left over.

## Main definitions

* `Json.IsPlain`: the trees in question
* `Json.depth`: how deep arrays and objects are nested
* `Json.EndsNumber`: the texts that do not continue a number
* `Json.IsReadBack`: what reading a tree back asks of fuel and room

## Main results

* `JsonText.readPieces?_flatMap_escape`: an escaped text is read back
* `Json.splitNumber?_toString`: the text of an integer is read back
* `Json.IsPlain.isReadBack`: a plain tree is read back, and the text after it is left
* `Json.IsPlain.read_render`: a plain tree is all that its text holds
-/

namespace DocExpr

/-! ## Strings -/

namespace JsonText

/-- The escape of a control character writes its number. -/
theorem hexUnit?_control {n : Nat} (h : n < 0x20) :
    hexUnit? '0' '0' (Nat.digitChar (n / 16)) (Nat.digitChar (n % 16)) = some n := by
  have hall : ∀ n < 0x20,
      hexUnit? '0' '0' (Nat.digitChar (n / 16)) (Nat.digitChar (n % 16)) = some n := by decide
  exact hall n h

/-- A unit that is no half of a pair stands for its own character. -/
theorem joinPieces?_unit {n : Nat} (h : n < 0xD800) (pieces : List Piece) :
    joinPieces? (.unit n :: pieces) = (joinPieces? pieces).map (Char.ofNat n :: ·) := by
  have hhigh : isHighUnit n = false := by simp [isHighUnit]; omega
  have hlow : isLowUnit n = false := by simp [isLowUnit]; omega
  rcases pieces with _ | ⟨_ | low, pieces⟩ <;> simp [joinPieces?, hhigh, hlow]

/-- A short escape is the piece of the character that it names. -/
theorem readPieces?_shortEscape {e c : Char} (he : e ≠ 'u') (h : shortEscape? e = some c)
    (cs : List Char) :
    readPieces? ('\\' :: e :: cs) =
      (readPieces? cs).map (fun (pieces, rest) => (.char c :: pieces, rest)) := by
  rw [readPieces?.eq_4 e cs (fun _ _ _ _ _ hu _ => he hu), h]
  cases readPieces? cs <;> rfl

/-- The escaped form of a character is one piece, and the piece makes the character. -/
theorem readPieces?_escape (c : Char) (cs : List Char) :
    ∃ piece,
      readPieces? (escape c ++ cs) =
        (readPieces? cs).map (fun (pieces, rest) => (piece :: pieces, rest)) ∧
      ∀ pieces, joinPieces? (piece :: pieces) = (joinPieces? pieces).map (c :: ·) := by
  unfold escape
  split
  case h_8 hquote hslash _ _ _ _ _ =>
    split
    · next hcontrol =>
      refine ⟨.unit c.toNat, ?_, fun pieces => ?_⟩
      · simp only [List.cons_append, List.nil_append, readPieces?, hexUnit?_control hcontrol]
        cases readPieces? cs <;> rfl
      · rw [joinPieces?_unit (by omega), Char.ofNat_toNat]
    · next hcontrol =>
      refine ⟨.char c, ?_, fun pieces => rfl⟩
      have hplain : ¬(decide (c.toNat < 0x20) || decide (c = '\\')) = true := by
        simpa using ⟨Nat.not_lt.mp hcontrol, hslash⟩
      rw [List.singleton_append, readPieces?.eq_5 c cs hquote (fun _ _ _ _ _ h _ => hslash h)
        (fun _ _ h _ => hslash h), if_neg hplain]
      cases readPieces? cs <;> rfl
  all_goals exact ⟨.char _, readPieces?_shortEscape (by decide) rfl cs, fun pieces => rfl⟩

/-- The escaped text is read up to the closing mark. -/
theorem readPieces?_flatMap_escape (text rest : List Char) :
    ∃ pieces, readPieces? (text.flatMap escape ++ '"' :: rest) = some (pieces, rest) ∧
      joinPieces? pieces = some text := by
  induction text with
  | nil => exact ⟨[], rfl, rfl⟩
  | cons c text ih =>
    obtain ⟨pieces, hread, hjoin⟩ := ih
    obtain ⟨piece, hpiece, hmakes⟩ := readPieces?_escape c (text.flatMap escape ++ '"' :: rest)
    refine ⟨piece :: pieces, ?_, ?_⟩
    · rw [List.flatMap_cons, List.append_assoc, hpiece, hread, Option.map_some]
    · rw [hmakes, hjoin, Option.map_some]

end JsonText

/-! ## Integers -/

namespace Json

/-- The digits of a number other than zero do not start with a zero. -/
theorem head?_toDigits_ne_zero {n : Nat} (hn : 0 < n) : (Nat.toDigits 10 n).head? ≠ some '0' := by
  induction n using Nat.strongRecOn with
  | ind n ih =>
    rcases Nat.lt_or_ge n 10 with hlt | hge
    · have hall : ∀ n < 10, 0 < n → [Nat.digitChar n].head? ≠ some '0' := by decide
      rw [Nat.toDigits_of_lt_base hlt]
      exact hall n hlt hn
    · rw [Nat.toDigits_of_base_le (by decide) hge,
        List.head?_append_of_ne_nil _ Nat.toDigits_ne_nil]
      exact ih (n / 10) (by omega) (by omega)

/-- A number has a first digit. -/
theorem exists_head_toDigits (n : Nat) :
    ∃ c cs, Nat.toDigits 10 n = c :: cs ∧ c.isDigit = true := by
  cases hdigits : Nat.toDigits 10 n with
  | nil => exact absurd hdigits Nat.toDigits_ne_nil
  | cons c cs =>
    have hmem : c ∈ Nat.toDigits 10 n := by
      rw [hdigits]
      exact List.mem_cons_self ..
    exact ⟨c, cs, rfl, Nat.isDigit_of_mem_toDigits (by decide) (by decide) hmem⟩

/-- What may stand behind a number: it does not continue the number. -/
def EndsNumber (rest : List Char) : Prop :=
  ∀ c ∈ rest.head?, c.isDigit = false ∧ c ≠ '.' ∧ c ≠ 'e' ∧ c ≠ 'E'

theorem endsNumber_cons {c : Char} (h : c.isDigit = false ∧ c ≠ '.' ∧ c ≠ 'e' ∧ c ≠ 'E')
    (rest : List Char) : EndsNumber (c :: rest) := by
  rintro _ ⟨⟩
  exact h

theorem splitFraction?_of_endsNumber {rest : List Char} (h : EndsNumber rest) :
    splitFraction? rest = some ([], rest) := by
  rw [splitFraction?]
  rintro later rfl
  exact (h '.' rfl).2.1 rfl

theorem splitExponent?_of_endsNumber {rest : List Char} (h : EndsNumber rest) :
    splitExponent? rest = some ([], rest) := by
  cases rest with
  | nil => rfl
  | cons c rest =>
    obtain ⟨-, -, he, hE⟩ := h c rfl
    rw [splitExponent?, if_neg (by simp [he, hE])]

/-- After its sign a number is read as far as its digits go. -/
theorem splitNumber?_of_splitMinus (sign : List Char) {cs rest : List Char} {n : Nat}
    (hrest : EndsNumber rest) (hsign : splitMinus cs = (sign, Nat.toDigits 10 n ++ rest)) :
    splitNumber? cs = some (sign ++ Nat.toDigits 10 n, rest) := by
  have hspan : (Nat.toDigits 10 n ++ rest).span Char.isDigit = (Nat.toDigits 10 n, rest) :=
    Numeral.span_isDigit rest (fun c hc => Nat.isDigit_of_mem_toDigits (by decide) (by decide) hc)
      fun c hc => (hrest c hc).1
  have hwhole : ((Nat.toDigits 10 n).isEmpty ||
      ((Nat.toDigits 10 n).head? = some '0' && (Nat.toDigits 10 n).length != 1)) = false := by
    rcases Nat.eq_zero_or_pos n with rfl | hn
    · rfl
    · simp [Nat.toDigits_ne_nil, head?_toDigits_ne_zero hn]
  rw [splitNumber?, hsign]
  simp only [hspan, hwhole, splitFraction?_of_endsNumber hrest]
  simp [splitExponent?_of_endsNumber hrest]

/-- The text of an integer is read back. -/
theorem splitNumber?_toString (n : Int) {rest : List Char} (hrest : EndsNumber rest) :
    splitNumber? ((toString n).toList ++ rest) = some ((toString n).toList, rest) := by
  cases n with
  | ofNat n =>
    rw [toList_toString_ofNat]
    refine splitNumber?_of_splitMinus [] hrest ?_
    obtain ⟨c, cs, hdigits, hc⟩ := exists_head_toDigits n
    rw [hdigits, List.cons_append, splitMinus]
    rintro rest heq
    exact (head_digits_ne cs hc).1 (by rw [(List.cons.inj heq).1]; rfl)
  | negSucc n =>
    rw [toList_toString_negSucc]
    exact splitNumber?_of_splitMinus ['-'] hrest rfl

/-- The characters with which the text of an integer starts. -/
def IsNumberHead (c : Char) : Prop := c = '-' ∨ c.isDigit = true

instance (c : Char) : Decidable (IsNumberHead c) := inferInstanceAs (Decidable (_ ∨ _))

theorem IsNumberHead.ne {c : Char} (h : IsNumberHead c) (other : Char)
    (hother : ¬IsNumberHead other) : c ≠ other := by
  rintro rfl
  exact hother h

/-- No other value starts as a number does. -/
theorem readScalar_of_isNumberHead {c : Char} (h : IsNumberHead c) (cs : List Char) :
    readScalar (c :: cs) =
      match splitNumber? (c :: cs) with
      | none => (.broken, c :: cs)
      | some (literal, rest) => (.number (String.ofList literal), rest) := by
  have hhead : ∀ {other : Char} {rest : List Char}, ¬IsNumberHead other →
      c :: cs = other :: rest → False :=
    fun hother heq => h.ne _ hother (List.cons.inj heq).1
  exact readScalar.eq_5 (c :: cs) (fun _ => hhead (by decide)) (fun _ => hhead (by decide))
    (fun _ => hhead (by decide)) fun _ => hhead (by decide)

theorem exists_head_toString (n : Int) :
    ∃ c cs, (toString n).toList = c :: cs ∧ IsNumberHead c := by
  cases n with
  | ofNat n =>
    obtain ⟨c, cs, hdigits, hc⟩ := exists_head_toDigits n
    exact ⟨c, cs, (toList_toString_ofNat n).trans hdigits, .inr hc⟩
  | negSucc n => exact ⟨'-', _, toList_toString_negSucc n, .inl rfl⟩

end Json

/-! ## Plain trees -/

mutual

/-- How deep arrays and objects are nested in a value. -/
def Json.depth : Json → Nat
  | .array items => items.depth + 1
  | .object members => members.depth + 1
  | .deep inner => inner.depth
  | _ => 0

/-- How deep the items of an array are nested. -/
def JsonItems.depth : JsonItems → Nat
  | .cons head tail => max head.depth tail.depth
  | _ => 0

/-- How deep the members of an object are nested. -/
def JsonMembers.depth : JsonMembers → Nat
  | .cons _ value tail => max value.depth tail.depth
  | _ => 0

end

theorem JsonItems.depth_ofList_le_iff {items : List Json} {n : Nat} :
    (JsonItems.ofList items).depth ≤ n ↔ ∀ item ∈ items, item.depth ≤ n := by
  induction items with
  | nil => simp [JsonItems.ofList, JsonItems.depth]
  | cons item rest ih =>
    rw [JsonItems.ofList, JsonItems.depth, Nat.max_le, ih, List.forall_mem_cons]

theorem JsonMembers.depth_ofList_le_iff {members : List (String × Json)} {n : Nat} :
    (JsonMembers.ofList members).depth ≤ n ↔ ∀ member ∈ members, member.2.depth ≤ n := by
  induction members with
  | nil => simp [JsonMembers.ofList, JsonMembers.depth]
  | cons member rest ih =>
    rw [JsonMembers.ofList, JsonMembers.depth, Nat.max_le, ih, List.forall_mem_cons]

/-- The text inside an array starts with that of the first item. -/
theorem JsonItems.exists_chars_ofList (item : Json) (items : List Json) :
    ∃ cs, (JsonItems.ofList (item :: items)).chars = item.chars ++ cs := by
  cases items <;> exact ⟨_, rfl⟩

/-- The text inside an object starts with the quotation mark of the first name. -/
theorem JsonMembers.exists_chars_ofList (member : String × Json) (members : List (String × Json)) :
    ∃ cs, (JsonMembers.ofList (member :: members)).chars = '"' :: cs := by
  cases members <;> exact ⟨_, rfl⟩

namespace Json

/-- A tree of closed arrays and objects over strings, integers, flags and nulls. -/
inductive IsPlain : Json → Prop
  | null : IsPlain .null
  | bool (flag : Bool) : IsPlain (.bool flag)
  | integer (n : Int) : IsPlain (.number (toString n))
  | string (text : String) : IsPlain (.string text)
  | array {items : List Json} (h : ∀ item ∈ items, IsPlain item) : IsPlain (.ofItems items)
  | object {members : List (String × Json)} (h : ∀ member ∈ members, IsPlain member.2) :
    IsPlain (.ofMembers members)

variable {json : Json}

theorem skipBlanks_cons {c : Char} (h : isJsonBlank c = false) (cs : List Char) :
    skipBlanks (c :: cs) = c :: cs :=
  List.dropWhile_cons_of_neg (by simp [h])

theorem IsNumberHead.isJsonBlank {c : Char} (h : IsNumberHead c) : Json.isJsonBlank c = false := by
  rw [Json.isJsonBlank, Bool.eq_false_iff]
  intro hblank
  simp only [Bool.or_eq_true, decide_eq_true_eq] at hblank
  rcases hblank with ((rfl | rfl) | rfl) | rfl <;> exact absurd h (by decide)

/-- A plain tree starts with a character that is neither a blank nor a closing bracket. -/
theorem IsPlain.exists_head (h : json.IsPlain) :
    ∃ c cs, json.chars = c :: cs ∧ isJsonBlank c = false ∧ c ≠ ']' := by
  cases h with
  | bool flag => cases flag <;> exact ⟨_, _, rfl, rfl, by decide⟩
  | integer n =>
    obtain ⟨c, cs, hchars, hc⟩ := exists_head_toString n
    exact ⟨c, cs, hchars, hc.isJsonBlank, hc.ne ']' (by decide)⟩
  | _ => exact ⟨_, _, rfl, rfl, by decide⟩

/-! ## Reading the inside of arrays and objects -/

/-- With fuel for its length and room for its depth the reader returns the tree and leaves the text
that follows. -/
def IsReadBack (json : Json) : Prop :=
  ∀ (fuel room : Nat) (rest : List Char), EndsNumber rest → 2 * json.chars.length ≤ fuel →
    json.depth ≤ room → readValue fuel room (json.chars ++ rest) = (json, rest)

theorem readItems_ofList {item : Json} {items : List Json}
    (h : ∀ other ∈ item :: items, IsReadBack other) (fuel room : Nat) (rest : List Char)
    (hfuel : 2 * (JsonItems.ofList (item :: items)).chars.length < fuel)
    (hroom : ∀ other ∈ item :: items, other.depth ≤ room) :
    readItems fuel room ((JsonItems.ofList (item :: items)).chars ++ rest) =
      (.ofList (item :: items), rest) := by
  induction items generalizing item fuel with
  | nil =>
    obtain ⟨fuel, rfl⟩ := Nat.exists_eq_add_one_of_ne_zero (Nat.ne_zero_of_lt hfuel)
    have hchars : (JsonItems.ofList [item]).chars = item.chars ++ [']'] := rfl
    rw [hchars, List.length_append] at hfuel
    have hitem := h item (by simp) fuel room (']' :: rest) (endsNumber_cons (by decide) rest)
      (by omega) (hroom item (by simp))
    rw [hchars, List.append_assoc, List.singleton_append, readItems, hitem]
    rfl
  | cons next items ih =>
    obtain ⟨fuel, rfl⟩ := Nat.exists_eq_add_one_of_ne_zero (Nat.ne_zero_of_lt hfuel)
    have hchars : (JsonItems.ofList (item :: next :: items)).chars =
        item.chars ++ ',' :: (JsonItems.ofList (next :: items)).chars := rfl
    rw [hchars, List.length_append, List.length_cons] at hfuel
    rw [List.forall_mem_cons] at h hroom
    have hitem := h.1 fuel room (',' :: ((JsonItems.ofList (next :: items)).chars ++ rest))
      (endsNumber_cons (by decide) _) (by omega) hroom.1
    have hitems := ih h.2 fuel (by omega) hroom.2
    rw [hchars, List.append_assoc, List.cons_append, readItems, hitem]
    simp only [skipBlanks_cons (c := ',') rfl, hitems]
    rfl

/-- The reader takes up one member, and what it does then depends on what follows. -/
theorem readMembers_write (name : String) {value : Json} {fuel room : Nat} {rest : List Char}
    (hvalue : readValue fuel room (value.chars ++ rest) = (value, rest)) :
    readMembers (fuel + 1) room (JsonText.write name ++ ':' :: (value.chars ++ rest)) =
      match skipBlanks rest with
      | ',' :: rest =>
        let (members, rest) := readMembers fuel room rest
        (.cons (some name) value members, rest)
      | '\x7d' :: rest => (.cons (some name) value .close, rest)
      | rest => (.cons (some name) value .cut, rest) := by
  obtain ⟨pieces, hread, hjoin⟩ :=
    JsonText.readPieces?_flatMap_escape name.toList (':' :: (value.chars ++ rest))
  have hname : (JsonText.joinPieces? pieces).map String.ofList = some name := by
    rw [hjoin, Option.map_some, String.ofList_toList]
  have hwrite : JsonText.write name ++ ':' :: (value.chars ++ rest) =
      '"' :: (name.toList.flatMap JsonText.escape ++ '"' :: ':' :: (value.chars ++ rest)) := by
    simp [JsonText.write]
  rw [hwrite, readMembers, skipBlanks_cons rfl]
  simp only [hread, hname, skipBlanks_cons (c := ':') rfl, hvalue] <;> rfl

theorem readMembers_ofList {member : String × Json} {members : List (String × Json)}
    (h : ∀ other ∈ member :: members, IsReadBack other.2) (fuel room : Nat) (rest : List Char)
    (hfuel : 2 * (JsonMembers.ofList (member :: members)).chars.length < fuel)
    (hroom : ∀ other ∈ member :: members, other.2.depth ≤ room) :
    readMembers fuel room ((JsonMembers.ofList (member :: members)).chars ++ rest) =
      (.ofList (member :: members), rest) := by
  induction members generalizing member fuel with
  | nil =>
    obtain ⟨fuel, rfl⟩ := Nat.exists_eq_add_one_of_ne_zero (Nat.ne_zero_of_lt hfuel)
    have hchars : (JsonMembers.ofList [member]).chars =
        JsonText.write member.1 ++ ':' :: member.2.chars ++ ['\x7d'] := rfl
    simp only [hchars, List.length_append, List.length_cons] at hfuel
    have hvalue := h member (by simp) fuel room ('\x7d' :: rest) (endsNumber_cons (by decide) rest)
      (by omega) (hroom member (by simp))
    calc readMembers (fuel + 1) room ((JsonMembers.ofList [member]).chars ++ rest)
        = readMembers (fuel + 1) room
            (JsonText.write member.1 ++ ':' :: (member.2.chars ++ '\x7d' :: rest)) := by
          rw [hchars]
          simp
      _ = (.ofList [member], rest) := by
          rw [readMembers_write member.1 hvalue, skipBlanks_cons rfl]
          rfl
  | cons next members ih =>
    obtain ⟨fuel, rfl⟩ := Nat.exists_eq_add_one_of_ne_zero (Nat.ne_zero_of_lt hfuel)
    have hchars : (JsonMembers.ofList (member :: next :: members)).chars =
        JsonText.write member.1 ++ ':' :: member.2.chars ++
          ',' :: (JsonMembers.ofList (next :: members)).chars := rfl
    simp only [hchars, List.length_append, List.length_cons] at hfuel
    rw [List.forall_mem_cons] at h hroom
    have hvalue := h.1 fuel room (',' :: ((JsonMembers.ofList (next :: members)).chars ++ rest))
      (endsNumber_cons (by decide) _) (by omega) hroom.1
    have hmembers := ih h.2 fuel (by omega) hroom.2
    calc readMembers (fuel + 1) room
          ((JsonMembers.ofList (member :: next :: members)).chars ++ rest)
        = readMembers (fuel + 1) room (JsonText.write member.1 ++ ':' :: (member.2.chars ++
            ',' :: ((JsonMembers.ofList (next :: members)).chars ++ rest))) := by
          rw [hchars]
          simp
      _ = (.ofList (member :: next :: members), rest) := by
          rw [readMembers_write member.1 hvalue, skipBlanks_cons rfl]
          simp only [hmembers]
          rfl

/-! ## Reading a tree -/

/-- There is room for a container that is nested no deeper than allowed. -/
theorem nest_of_lt {room : Nat} (h : 0 < room) (container : Json) :
    nest room container = container :=
  if_neg (Nat.ne_of_gt h)

theorem isReadBack_ofItems {items : List Json} (hplain : ∀ item ∈ items, item.IsPlain)
    (h : ∀ item ∈ items, IsReadBack item) : IsReadBack (ofItems items) := by
  intro fuel room rest _ hfuel hroom
  have hchars : (ofItems items).chars = '[' :: (JsonItems.ofList items).chars := rfl
  have hdepth : (ofItems items).depth = (JsonItems.ofList items).depth + 1 := rfl
  rw [hchars, List.length_cons] at hfuel
  rw [hdepth] at hroom
  obtain ⟨fuel, rfl⟩ := Nat.exists_eq_add_one_of_ne_zero (n := fuel) (by omega)
  rw [hchars, List.cons_append, readValue, skipBlanks_cons rfl]
  cases items with
  | nil =>
    change (nest room (.array .close), rest) = _
    rw [nest_of_lt (by omega)]
    rfl
  | cons item items =>
    have hitems := readItems_ofList h fuel (room - 1) rest (by omega)
      (JsonItems.depth_ofList_le_iff.mp (by omega))
    -- The first item does not start like the closing bracket, so the array is not taken for empty.
    obtain ⟨c, cs, hitem, hblank, hclose⟩ := (hplain item (by simp)).exists_head
    obtain ⟨cs', hinside⟩ := JsonItems.exists_chars_ofList item items
    rw [hinside, hitem, List.append_assoc, List.cons_append] at hitems ⊢
    simp only [skipBlanks_cons hblank]
    split
    · next heq => exact absurd (List.cons.inj heq).1 hclose
    · rw [hitems, nest_of_lt (by omega)]
      rfl

theorem isReadBack_ofMembers {members : List (String × Json)}
    (h : ∀ member ∈ members, IsReadBack member.2) : IsReadBack (ofMembers members) := by
  intro fuel room rest _ hfuel hroom
  have hchars : (ofMembers members).chars = '\x7b' :: (JsonMembers.ofList members).chars := rfl
  have hdepth : (ofMembers members).depth = (JsonMembers.ofList members).depth + 1 := rfl
  rw [hchars, List.length_cons] at hfuel
  rw [hdepth] at hroom
  obtain ⟨fuel, rfl⟩ := Nat.exists_eq_add_one_of_ne_zero (n := fuel) (by omega)
  rw [hchars, List.cons_append, readValue, skipBlanks_cons rfl]
  cases members with
  | nil =>
    change (nest room (.object .close), rest) = _
    rw [nest_of_lt (by omega)]
    rfl
  | cons member members =>
    have hmembers := readMembers_ofList h fuel (room - 1) rest (by omega)
      (JsonMembers.depth_ofList_le_iff.mp (by omega))
    -- The first name starts with a quotation mark, so the object is not taken for empty.
    obtain ⟨cs, hinside⟩ := JsonMembers.exists_chars_ofList member members
    rw [hinside, List.cons_append] at hmembers ⊢
    change (nest room (.object (readMembers fuel (room - 1) ('"' :: (cs ++ rest))).1),
      (readMembers fuel (room - 1) ('"' :: (cs ++ rest))).2) = _
    rw [hmembers, nest_of_lt (by omega)]
    rfl

theorem isReadBack_string (text : String) : IsReadBack (.string text) := by
  intro fuel room rest _ hfuel _
  obtain ⟨pieces, hread, hjoin⟩ := JsonText.readPieces?_flatMap_escape text.toList rest
  have hwrite : (string text).chars ++ rest =
      '"' :: (text.toList.flatMap JsonText.escape ++ '"' :: rest) := by
    simp [chars, JsonText.write]
  have hpositive : fuel ≠ 0 := by
    rintro rfl
    cases hfuel
  obtain ⟨fuel, rfl⟩ := Nat.exists_eq_add_one_of_ne_zero hpositive
  rw [hwrite, readValue, skipBlanks_cons rfl]
  change readScalar ('"' :: (text.toList.flatMap JsonText.escape ++ '"' :: rest)) = _
  simp only [readScalar, hread, hjoin, String.ofList_toList]

theorem isReadBack_integer (n : Int) : IsReadBack (.number (toString n)) := by
  intro fuel room rest hrest hfuel _
  obtain ⟨c, cs, hchars, hc⟩ := exists_head_toString n
  have hwrite : (number (toString n)).chars = c :: cs := hchars
  have hsplit : splitNumber? (c :: (cs ++ rest)) = some (c :: cs, rest) := by
    rw [← List.cons_append, ← hchars, splitNumber?_toString n hrest]
  rw [hwrite, List.length_cons] at hfuel
  obtain ⟨fuel, rfl⟩ := Nat.exists_eq_add_one_of_ne_zero (n := fuel) (by omega)
  rw [hwrite, List.cons_append, readValue, skipBlanks_cons hc.isJsonBlank]
  split
  · next heq => exact absurd (List.cons.inj heq).1 (hc.ne '[' (by decide))
  · next heq => exact absurd (List.cons.inj heq).1 (hc.ne '\x7b' (by decide))
  · rw [readScalar_of_isNumberHead hc, hsplit, ← hchars]
    simp only [String.ofList_toList]

/-- **A plain tree is read back, and the text after it is left.** -/
theorem IsPlain.isReadBack (h : json.IsPlain) : json.IsReadBack := by
  induction h with
  | null =>
    rintro (_ | fuel) room rest - hfuel -
    · cases hfuel
    · rfl
  | bool flag =>
    rintro (_ | fuel) room rest - hfuel -
    · cases flag <;> cases hfuel
    · cases flag <;> rfl
  | integer n => exact isReadBack_integer n
  | string text => exact isReadBack_string text
  | array hplain ih => exact isReadBack_ofItems hplain ih
  | object _ ih => exact isReadBack_ofMembers ih

/-- **A plain tree is all that its text holds.** -/
theorem IsPlain.read_render (h : json.IsPlain) {room : Nat} (hroom : json.depth ≤ room) :
    Json.read json.render room = ⟨json, true⟩ := by
  have hread := h.isReadBack (2 * json.chars.length + 2) room [] nofun (by omega) hroom
  rw [List.append_nil] at hread
  rw [Json.read, render, String.toList_ofList, hread]
  rfl

end Json

end DocExpr
