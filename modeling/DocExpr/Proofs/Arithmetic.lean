import DocExpr.Proofs.NumberText
import DocExpr.Proofs.SchemaPaths

/-!
# Arithmetic in updates

A sum or difference is written without parentheses, and a reader of it goes from left to right.  As
far as operands are nested on the left, or behind a plus, that yields what the expression says.
Behind a minus it does not: of a nested sum or difference the reader subtracts the first operand
only, and reads the later ones with the signs they have inside.  So `a - (b - c)` is read as
`a - b - c`, which is off by twice what the later operands come to.

The reader here knows nothing of trees.  It gets the pieces of the text, cuts them into words at the
blanks, and runs through the words with a total.

## Main definitions

* `calculate`: what the pieces of a sum or difference come to, read from left to right
* `ValueExpr.IsArithmetic`, `ValueExpr.value`: expressions over integers, and what they say
* `ValueExpr.misplaced`: what is read with the wrong sign
* `ValueExpr.KeepsGrouping`: only single operands are subtracted

## Main results

* `readSteps_writtenSteps`: the reader gets the steps of a path back
* `ValueExpr.calculate_written`: what is written comes to the value and twice what is misplaced
* `ValueExpr.KeepsGrouping.misplaced_eq_zero`: nothing is misplaced if only single operands are
  subtracted
* `Statement.right_side_calculates`: this is how the right side of a `SET` statement is read
-/

namespace DocExpr

open Piece (ofText)

/-! ## Reading from left to right -/

/-- The integer that a number attribute keeps. -/
def AttributeValue.integer? : AttributeValue → Option Int
  | .number numeral => IntegerType.int64.readUnbounded? numeral.toList
  | _ => none

/-- What an operator makes of two numbers. -/
def ArithmeticOp.apply : ArithmeticOp → Int → Int → Int
  | plus, a, b => a + b
  | minus, a, b => a - b

/-- Whether a piece stands between two words. -/
def Piece.isBlank : Piece → Bool
  | .char c => c = ' '
  | _ => false

mutual

/-- The steps behind the first name of a path. -/
def readSteps : List Piece → Option (List Segment)
  | [] => some []
  | .char '.' :: .name field :: rest => (readSteps rest).map (.field field :: ·)
  | .char '[' :: rest => readOrdinal [] rest
  | _ => none

/-- An ordinal of which some digits are read, and the steps behind it. -/
def readOrdinal (digits : List Char) : List Piece → Option (List Segment)
  | .char ']' :: rest => do
    let ordinal ← readDigits? digits
    let steps ← readSteps rest
    return .index ordinal :: steps
  | .char c :: rest => readOrdinal (digits ++ [c]) rest
  | _ => none

end

/-- The number that a word stands for: a literal, or what the attribute at a path is. -/
def readOperand? (env : List Segment → Int) : List Piece → Option Int
  | [.value value] => value.integer?
  | .name field :: steps => (readSteps steps).map fun rest => env (.field field :: rest)
  | _ => none

/-- The operator that a word stands for. -/
def readOperator? : List Piece → Option ArithmeticOp
  | [.char '+'] => some .plus
  | [.char '-'] => some .minus
  | _ => none

/-- Adds to a total, or subtracts from it, word by word. -/
def calculateFrom (env : List Segment → Int) (total : Int) : List (List Piece) → Option Int
  | [] => some total
  | [_] => none
  | sign :: operand :: rest => do
    let op ← readOperator? sign
    let number ← readOperand? env operand
    calculateFrom env (op.apply total number) rest

/-- What some pieces come to, read from left to right. -/
def calculate (env : List Segment → Int) (pieces : List Piece) : Option Int :=
  match pieces.splitOnP Piece.isBlank with
  | [] => none
  | operand :: rest => (readOperand? env operand).bind fun total => calculateFrom env total rest

/-! ## What an expression says -/

namespace ValueExpr

/-- An expression over integers and the attributes at paths. -/
def IsArithmetic : ValueExpr Path AttributeValue → Prop
  | .constant literal => literal.integer?.isSome
  | .path _ => True
  | .arithmetic left _ right => IsArithmetic left ∧ IsArithmetic right
  | .listAppend .. => False

/-- A single operand. -/
def IsOperand : ValueExpr Path AttributeValue → Prop
  | .constant _ | .path _ => True
  | .arithmetic .. | .listAppend .. => False

/-- Only single operands are subtracted. -/
def KeepsGrouping : ValueExpr Path AttributeValue → Prop
  | .arithmetic left .plus right => KeepsGrouping left ∧ KeepsGrouping right
  | .arithmetic left .minus right => KeepsGrouping left ∧ IsOperand right
  | _ => True

section Value

variable (env : List Segment → Int)

/-- What an expression over integers says. -/
def value : ValueExpr Path AttributeValue → Int
  | .constant literal => literal.integer?.getD 0
  | .path p => env p.segments
  | .arithmetic left op right => op.apply (value left) (value right)
  | .listAppend .. => 0

/-- The operand that is written first. -/
def first : ValueExpr Path AttributeValue → Int
  | .arithmetic left _ _ => first left
  | operand => value env operand

/-- What the later operands come to, each with the sign that is written before it. -/
def later : ValueExpr Path AttributeValue → Int
  | .arithmetic left op right => op.apply (later left) (first env right) + later right
  | _ => 0

/-- What is read with the wrong sign: the later operands of whatever is subtracted. -/
def misplaced : ValueExpr Path AttributeValue → Int
  | .arithmetic left .plus right => misplaced left + misplaced right
  | .arithmetic left .minus right => misplaced left - misplaced right + later env right
  | _ => 0

/-- From left to right, an expression comes to its value and twice what is misplaced. -/
theorem first_add_later (expr : ValueExpr Path AttributeValue) :
    expr.first env + expr.later env = expr.value env + 2 * expr.misplaced env := by
  induction expr with
  | constant literal => simp [first, later, misplaced]
  | path p => simp [first, later, misplaced]
  | listAppend head tail => simp [first, later, misplaced]
  | arithmetic left op right ihl ihr =>
    cases op with
    | plus =>
      simp only [first, later, value, misplaced, ArithmeticOp.apply]
      omega
    | minus =>
      -- The later operands of the right side are read with their own sign, not with the opposite.
      simp only [first, later, value, misplaced, ArithmeticOp.apply]
      omega

/-- **Nothing is misplaced if only single operands are subtracted.** -/
theorem KeepsGrouping.misplaced_eq_zero {expr : ValueExpr Path AttributeValue}
    (h : expr.KeepsGrouping) : expr.misplaced env = 0 := by
  induction expr with
  | constant literal => rfl
  | path p => rfl
  | listAppend head tail => rfl
  | arithmetic left op right ihl ihr =>
    cases op with
    | plus => rw [misplaced, ihl h.1, ihr h.2, add_zero]
    | minus =>
      obtain ⟨hleft, hright⟩ := h
      have hsingle : right.misplaced env = 0 ∧ right.later env = 0 := by
        cases right with
        | constant literal => exact ⟨rfl, rfl⟩
        | path p => exact ⟨rfl, rfl⟩
        | arithmetic left op right => cases hright
        | listAppend head tail => cases hright
      rw [misplaced, ihl hleft, hsingle.1, hsingle.2, sub_zero, add_zero]

end Value

end ValueExpr

/-! ## Operands in the text -/

/-- The digits in front of a bracket are those of an ordinal. -/
theorem readOrdinal_digits (rest : List Piece) {digits : List Char} (read : List Char)
    (h : ∀ c ∈ digits, c.isDigit) :
    readOrdinal read (digits.map .char ++ .char ']' :: rest) =
      (readDigits? (read ++ digits)).bind fun ordinal =>
        (readSteps rest).map (.index ordinal :: ·) := by
  induction digits generalizing read with
  | nil =>
    rw [List.map_nil, List.nil_append, List.append_nil, readOrdinal]
    cases readDigits? read with
    | none => rfl
    | some ordinal => cases readSteps rest <;> rfl
  | cons c digits ih =>
    obtain ⟨hc, hdigits⟩ := List.forall_mem_cons.mp h
    have hne : c ≠ ']' := by
      rintro rfl
      exact absurd hc (by decide)
    rw [List.map_cons, List.cons_append, readOrdinal, ih (read ++ [c]) hdigits, List.append_assoc,
      List.singleton_append]
    simpa using hne

theorem ofText_ordinal (ordinal : Nat) : ofText ("[" ++ toString ordinal ++ "]") =
    .char '[' :: ((Nat.toDigits 10 ordinal).map .char ++ [.char ']']) := by
  rw [ofText, String.toList_append, String.toList_append]
  simp [Nat.repr]

theorem isDigit_of_mem_toDigits (ordinal : Nat) : ∀ c ∈ Nat.toDigits 10 ordinal, c.isDigit :=
  fun _ hc => Nat.isDigit_of_mem_toDigits (by decide) (by decide) hc

/-- **The reader gets the steps of a path back.** -/
theorem readSteps_writtenSteps (steps : List Segment) :
    readSteps (writtenSteps steps) = some steps := by
  induction steps with
  | nil => rfl
  | cons step rest ih =>
    cases step with
    | field name =>
      have hpieces : writtenSteps (.field name :: rest) =
          .char '.' :: .name name :: writtenSteps rest := rfl
      rw [hpieces, readSteps, ih]
      rfl
    | index ordinal =>
      have hpieces : writtenSteps (.index ordinal :: rest) = .char '[' ::
          ((Nat.toDigits 10 ordinal).map .char ++ .char ']' :: writtenSteps rest) := by
        rw [writtenSteps, ofText_ordinal]
        simp
      rw [hpieces, readSteps, readOrdinal_digits _ [] (isDigit_of_mem_toDigits ordinal),
        List.nil_append, readDigits?_toDigits, ih]
      rfl

/-- The steps of a path stand in one word. -/
theorem isBlank_of_mem_writtenSteps {steps : List Segment} :
    ∀ piece ∈ writtenSteps steps, piece.isBlank = false := by
  induction steps with
  | nil => simp [writtenSteps]
  | cons step rest ih =>
    cases step with
    | field name =>
      refine List.forall_mem_append.mpr ⟨?_, ih⟩
      simp [ofText, Piece.isBlank]
    | index ordinal =>
      refine List.forall_mem_append.mpr ⟨?_, ih⟩
      rw [ofText_ordinal]
      intro piece hpiece
      rcases List.mem_cons.mp hpiece with rfl | hpiece
      · rfl
      rcases List.mem_append.mp hpiece with hpiece | hpiece
      · obtain ⟨c, hc, rfl⟩ := List.mem_map.mp hpiece
        have hdigit := isDigit_of_mem_toDigits ordinal c hc
        refine decide_eq_false ?_
        rintro rfl
        exact absurd hdigit (by decide)
      · rw [List.mem_singleton.mp hpiece]
        rfl

/-! ## Expressions in the text -/

/-- The words of an expression: an operand, and behind it what comes to `later`, whatever the total
before it is and whatever follows. -/
def ReadsAs (env : List Segment → Int) (pieces : List Piece) (first later : Int) : Prop :=
  ∃ operand rest, pieces.splitOnP Piece.isBlank = operand :: rest ∧
    readOperand? env operand = some first ∧
    ∀ total after, calculateFrom env total (rest ++ after) =
      calculateFrom env (total + later) after

namespace ReadsAs

variable {env : List Segment → Int}

/-- A single operand is one word. -/
theorem operand {pieces : List Piece} {number : Int}
    (hblank : ∀ piece ∈ pieces, piece.isBlank = false)
    (h : readOperand? env pieces = some number) : ReadsAs env pieces number 0 := by
  refine ⟨pieces, [], List.splitOnP_eq_singleton hblank, h, fun total after => ?_⟩
  rw [List.nil_append, add_zero]

/-- What is behind an operator is read word by word: only its first operand meets the operator. -/
theorem arithmetic {left right : List Piece} {first later first' later' : Int}
    (hleft : ReadsAs env left first later) (op : ArithmeticOp)
    (hright : ReadsAs env right first' later') :
    ReadsAs env (left ++ ofText (" " ++ op.sign ++ " ") ++ right) first
      (op.apply later first' + later') := by
  obtain ⟨operand, rest, hwords, hoperand, hrest⟩ := hleft
  obtain ⟨operand', rest', hwords', hoperand', hrest'⟩ := hright
  obtain ⟨sign, hsign, hread, hblank⟩ : ∃ sign, ofText (" " ++ op.sign ++ " ") =
      [.char ' ', sign, .char ' '] ∧ readOperator? [sign] = some op ∧ sign.isBlank = false := by
    cases op with
    | plus => exact ⟨.char '+', rfl, rfl, rfl⟩
    | minus => exact ⟨.char '-', rfl, rfl, rfl⟩
  -- The operator is a word of its own, since it stands between blanks.
  have hall : (left ++ ofText (" " ++ op.sign ++ " ") ++ right).splitOnP Piece.isBlank =
      operand :: (rest ++ [sign] :: operand' :: rest') := by
    have hsplit : left ++ ofText (" " ++ op.sign ++ " ") ++ right =
        left ++ .char ' ' :: ([sign] ++ .char ' ' :: right) := by
      rw [hsign]
      simp
    rw [hsplit, List.splitOnP_append_cons _ _ rfl, List.splitOnP_append_cons _ _ rfl, hwords,
      hwords', List.splitOnP_eq_singleton (by simpa using hblank)]
    rfl
  refine ⟨operand, _, hall, hoperand, fun total after => ?_⟩
  have htotal : op.apply (total + later) first' = total + op.apply later first' := by
    cases op with
    | plus => exact add_assoc ..
    | minus => exact add_sub_assoc ..
  calc calculateFrom env total ((rest ++ [sign] :: operand' :: rest') ++ after)
      = calculateFrom env (total + later) ([sign] :: operand' :: (rest' ++ after)) := by
        rw [List.append_assoc, hrest]
        rfl
    _ = calculateFrom env (op.apply (total + later) first') (rest' ++ after) := by
        rw [calculateFrom, hread, hoperand']
        rfl
    _ = calculateFrom env (total + (op.apply later first' + later')) after := by
        rw [hrest', htotal, add_assoc]

/-- The whole is what the words come to. -/
theorem calculate_eq {pieces : List Piece} {first later : Int}
    (h : ReadsAs env pieces first later) : calculate env pieces = some (first + later) := by
  obtain ⟨operand, rest, hwords, hoperand, hrest⟩ := h
  have hend := hrest first []
  rw [List.append_nil] at hend
  rw [calculate, hwords]
  dsimp only
  rw [hoperand, Option.bind_some, hend]
  rfl

end ReadsAs

namespace ValueExpr

variable {expr : ValueExpr Path AttributeValue}

/-- An expression over integers is read operand by operand. -/
theorem readsAs_written (h : expr.IsArithmetic)
    (hpaths : ∀ path ∈ expr.paths, ∃ name rest, path.segments = .field name :: rest)
    (env : List Segment → Int) : ReadsAs env expr.written (expr.first env) (expr.later env) := by
  induction expr with
  | constant literal =>
    obtain ⟨number, hnumber⟩ := Option.isSome_iff_exists.mp h
    have hvalue : (constant literal).value env = number := by rw [value, hnumber, Option.getD_some]
    exact .operand (List.forall_mem_singleton.mpr rfl) (hnumber.trans (congrArg some hvalue.symm))
  | path p =>
    obtain ⟨name, rest, hsegments⟩ := hpaths p List.mem_cons_self
    have hvalue : (path p).value env = env (.field name :: rest) := by rw [value, hsegments]
    have hblank : ∀ piece ∈ Piece.name name :: writtenSteps rest, piece.isBlank = false :=
      List.forall_mem_cons.mpr ⟨rfl, isBlank_of_mem_writtenSteps⟩
    rw [written, Path.written, hsegments]
    refine .operand hblank ?_
    rw [readOperand?, readSteps_writtenSteps, Option.map_some, ← hvalue]
    rfl
  | arithmetic left op right ihl ihr =>
    obtain ⟨hl, hr⟩ := List.forall_mem_append.mp hpaths
    exact (ihl h.1 hl).arithmetic op (ihr h.2 hr)
  | listAppend head tail => cases h

/-- **What is written comes to the value and twice what is misplaced.** -/
theorem calculate_written (h : expr.IsArithmetic)
    (hpaths : ∀ path ∈ expr.paths, ∃ name rest, path.segments = .field name :: rest)
    (env : List Segment → Int) :
    calculate env expr.written = some (expr.value env + 2 * expr.misplaced env) := by
  rw [(readsAs_written h hpaths env).calculate_eq, first_add_later]

end ValueExpr

/-! ## Statements -/

variable {n : Nat} {family : Family n} {of : Fin n}

/-- The paths of a resolved expression start at names. -/
theorem Resolved.exists_field {ctx ctx' : Context} {values : List BoundValue}
    {expr : ResolvedExpr} (h : Resolved ctx expr.paths values ctx') :
    ∀ path ∈ ValueExpr.paths (ResolvedExpr.source expr),
      ∃ name rest, path.segments = .field name :: rest := by
  intro path hpath
  rw [ResolvedExpr.source, ValueExpr.paths_map] at hpath
  obtain ⟨resolved, hresolved, rfl⟩ := List.mem_map.mp hpath
  exact Path.exists_field_of_literal (h.paths resolved hresolved).literal

/-- **How the right side of a `SET` statement is read.**  In any reached context, the right side of
a statement that resolves, its placeholders looked up where they are declared and its operators
applied from left to right, comes to the value of the expression and twice what is misplaced, for
all integers that the attributes may be.  It comes to the value itself if only single operands are
subtracted. -/
theorem Statement.right_side_calculates {ctx ctx' : Context} (hctx : ctx.Reached) (target : Path)
    (expr : ValueExpr Path AttributeValue) (overwrite : Bool) (hexpr : expr.IsArithmetic)
    (resolved : ResolvedStatement)
    (h : (Statement.resolve family of ⟨target, .set expr overwrite⟩).runOn ctx =
      (.ok resolved, ctx')) (env : List Segment → Int) :
    ∃ value pieces, resolved.action = .set value overwrite ∧
      (ResolvedExpr.fragment value).read = some pieces ∧
      calculate env pieces = some (expr.value env + 2 * expr.misplaced env) ∧
      (expr.KeepsGrouping → calculate env pieces = some (expr.value env)) := by
  have hspec : Compile.Spec Context.Sound (Statement.resolve family of _) _ :=
    Statement.resolve_spec Context.stable_sound ⟨target, .set expr overwrite⟩
  have hsound : ctx'.Sound := by
    have hkeeps := hspec.keeps hctx.sound
    rwa [h] at hkeeps
  obtain ⟨hsource, hresolved⟩ := hspec.result hctx.sound h
  obtain ⟨target', action⟩ := resolved
  cases action with
  | set value overwrite' =>
    cases hsource
    -- The target is bound as well, but the right side has only the leaves behind it.
    have hvalue : Resolved ctx (ValueExpr.paths value) (ValueExpr.literals value) ctx' :=
      ⟨fun path hp => hresolved.paths path (List.mem_cons_of_mem _ hp), hresolved.minted⟩
    have hconveys := (compositional_conveys ctx').expr value
      (hvalue.onLeaves_conveys hsound.linked hsound.formed)
    have hcalculate := ValueExpr.calculate_written hexpr hvalue.exists_field env
    refine ⟨value, _, rfl, hconveys.read_eq hsound.formed, hcalculate, fun hkeeps => ?_⟩
    rw [hkeeps.misplaced_eq_zero env, mul_zero, add_zero] at hcalculate
    exact hcalculate
  | add value => cases hsource
  | remove => cases hsource
  | delete value => cases hsource

/-- One less than the age, subtracted from the age, is one; what is written comes to minus one. -/
theorem Statement.right_side_calculates_nested_minus :
    let age := Path.ofName "age"
    let expr : ValueExpr Path AttributeValue :=
      .arithmetic (.path age) .minus (.arithmetic (.path age) .minus (.constant (.number "1")))
    ∃ resolved ctx',
      (Statement.resolve persons 0 ⟨age, .set expr true⟩).runOn (.fresh "AB") =
        (.ok resolved, ctx') ∧
      resolved.fragment.text = "#A = #A - #A - :B" ∧
      ∀ env : List Segment → Int, expr.value env = 1 ∧
        ∃ value pieces, resolved.action = .set value true ∧
          (ResolvedExpr.fragment value).read = some pieces ∧
          calculate env pieces = some (-1) := by
  intro age expr
  have htext : ((Statement.resolve persons 0 ⟨age, .set expr true⟩).runOn
      (.fresh "AB")).1.toOption.map (fun resolved => resolved.fragment.text) =
      some "#A = #A - #A - :B" := by
    decide +kernel
  obtain ⟨resolved, ctx', hrun, htext⟩ := Compile.exists_of_toOption htext
  refine ⟨resolved, ctx', hrun, htext, fun env => ?_⟩
  have hexpr : expr.IsArithmetic := ⟨trivial, trivial, rfl⟩
  have hone : (AttributeValue.number "1").integer? = some 1 := by decide +kernel
  have hvalue : expr.value env = 1 := by
    simp [expr, ValueExpr.value, ArithmeticOp.apply, hone]
  have hmisplaced : expr.misplaced env = -1 := by
    simp [expr, ValueExpr.misplaced, ValueExpr.later, ValueExpr.first, ValueExpr.value,
      ArithmeticOp.apply, hone]
  obtain ⟨value, pieces, haction, hread, hcalculate, -⟩ :=
    Statement.right_side_calculates (.fresh "AB") age expr true hexpr resolved hrun env
  rw [hvalue, hmisplaced] at hcalculate
  exact ⟨hvalue, value, pieces, haction, hread, hcalculate⟩

end DocExpr
