import DocExpr.Proofs.Composition
import DocExpr.Proofs.Resolution

/-!
# The meaning of leaves

A bound path and a minted value are the leaves of every expression, and a path is in turn put
together from its names.  So what is to be shown of expressions is shown of the placeholder of one
name and of the placeholder of one value.

Two things are shown.  A fragment is *exact* when it declares the placeholders that its text
mentions; that needs no more than placeholders that a reader takes as a whole.  A fragment *conveys*
pieces in a context when moreover its declarations are those of the context and a reader who looks
placeholders up there gets the pieces back.

## Main definitions

* `IsReference`, `IsName`, `IsValue`: what placeholders look like
* `Fragment.Exact`, `Fragment.Conveys`: what leaves satisfy

## Main results

* `compositional_exact`, `compositional_conveys`: both may be shown leaf by leaf
* `Compositional.path`: a path conveys what it says if its names do
* `Fragment.Conveys.readText_eq`: a reader may as well look placeholders up where they are declared
-/

namespace DocExpr

open Piece (ofText)

/-! ## Placeholders -/

/-- A text that a reader takes as one reference. -/
def IsReference (placeholder : String) : Prop :=
  lex placeholder.toList = [.reference placeholder]

/-- The sigil of names and a token. -/
def IsName (placeholder : String) : Prop :=
  ∃ token, isToken token ∧ placeholder = namePlaceholder token

/-- The sigil of values and a token. -/
def IsValue (placeholder : String) : Prop :=
  ∃ token, isToken token ∧ placeholder = valuePlaceholder token

theorem isToken_iff (token : String) :
    isToken token ↔ token.toList ≠ [] ∧ ∀ c ∈ token.toList, isTokenChar c := by
  simp [isToken]

theorem isReference_of_isToken {placeholder token : String} {sigil : Char} (hs : isSigil sigil)
    (htoken : isToken token) (h : placeholder.toList = sigil :: token.toList) :
    IsReference placeholder := by
  obtain ⟨hne, hall⟩ := (isToken_iff token).mp htoken
  have htake : token.toList.takeWhile isTokenChar = token.toList :=
    List.takeWhile_eq_self_iff.mpr hall
  have hdrop : token.toList.dropWhile isTokenChar = [] := List.dropWhile_eq_nil_iff.mpr hall
  rw [IsReference, h, lex_cons_reference hs (by rwa [htake]), htake, hdrop, lex_nil, ← h,
    String.ofList_toList]

theorem IsName.isReference {placeholder : String} (h : IsName placeholder) :
    IsReference placeholder := by
  obtain ⟨token, htoken, rfl⟩ := h
  have hlist : (namePlaceholder token).toList = '#' :: token.toList := by
    rw [namePlaceholder, String.toList_append]
    rfl
  exact isReference_of_isToken (by decide) htoken hlist

theorem IsValue.isReference {placeholder : String} (h : IsValue placeholder) :
    IsReference placeholder := by
  obtain ⟨token, htoken, rfl⟩ := h
  have hlist : (valuePlaceholder token).toList = ':' :: token.toList := by
    rw [valuePlaceholder, String.toList_append]
    rfl
  exact isReference_of_isToken (by decide) htoken hlist

theorem IsName.head? {placeholder : String} (h : IsName placeholder) :
    placeholder.toList.head? = some '#' := by
  obtain ⟨token, -, rfl⟩ := h
  rw [namePlaceholder, String.toList_append]
  rfl

theorem IsValue.head? {placeholder : String} (h : IsValue placeholder) :
    placeholder.toList.head? = some ':' := by
  obtain ⟨token, -, rfl⟩ := h
  rw [valuePlaceholder, String.toList_append]
  rfl

/-- A reader takes what it refers to as a whole. -/
theorem isReference_of_mem {placeholder : String} {text : List Char}
    (h : placeholder ∈ references text) : IsReference placeholder := by
  rw [references_eq_lex] at h
  fun_induction lex text with
  | case1 => cases h
  | case2 c rest hc ih =>
    rcases List.mem_cons.mp h with rfl | h
    · -- The run behind the sigil is a token, so the reference is a sigil and a token.
      have hall : ∀ x ∈ rest.takeWhile isTokenChar, isTokenChar x :=
        fun x hx => List.mem_takeWhile_imp hx
      have htoken : isToken (String.ofList (rest.takeWhile isTokenChar)) := by
        rw [isToken_iff, String.toList_ofList]
        exact ⟨hc.2, hall⟩
      exact isReference_of_isToken hc.1 htoken (by rw [String.toList_ofList, String.toList_ofList])
    · exact ih h
  | case3 c rest hc ih =>
    exact ih h

theorem IsReference.references_eq {placeholder : String} (h : IsReference placeholder) :
    references placeholder.toList = [placeholder] := by
  rw [references_eq_lex, h]
  rfl

theorem IsReference.ne_empty {placeholder : String} (h : IsReference placeholder) :
    placeholder ≠ "" := by
  rintro rfl
  have hempty : lex [] = [.reference ""] := h
  rw [lex_nil] at hempty
  cases hempty

/-! ## Exact fragments -/

namespace Fragment

/-- The placeholders that are declared are those that the text mentions. -/
def Exact (fragment : Fragment) : Prop :=
  ∀ placeholder, placeholder ∈ references fragment.text.toList ↔
    placeholder ∈ fragment.names.keys ∨ placeholder ∈ fragment.values.keys

theorem exact_ofText {text : String} (h : Plain text.toList) : (ofText text).Exact := by
  intro placeholder
  rw [ofText, references_plain h]
  simp

theorem Exact.append {a b : Fragment} (h : Separated a.text.toList b.text.toList) (ha : a.Exact)
    (hb : b.Exact) : (a ++ b).Exact := by
  intro placeholder
  rw [text_append, String.toList_append, references_append h, List.mem_append, ha, hb,
    names_append, values_append, Dict.mem_keys_merge, Dict.mem_keys_merge]
  exact or_or_or_comm

/-- The placeholder of a field. -/
def ofName (placeholder field : String) : Fragment :=
  { text := placeholder, names := .singleton placeholder field }

theorem exact_ofName {placeholder : String} (h : IsReference placeholder) (field : String) :
    (ofName placeholder field).Exact := by
  intro p
  rw [ofName, h.references_eq]
  simp

theorem exact_value {value : BoundValue} (h : IsReference value.placeholder) :
    value.fragment.Exact := by
  intro p
  rw [BoundValue.fragment, h.references_eq]
  simp

end Fragment

theorem compositional_exact : Compositional fun fragment _ => fragment.Exact :=
  ⟨Fragment.exact_ofText, Fragment.Exact.append⟩

/-! ## Fragments that convey pieces -/

theorem readText_append {names : Dict String} {values : Dict AttributeValue} {a b : String}
    {v w : List Piece} (h : Separated a.toList b.toList) (ha : readText names values a = some v)
    (hb : readText names values b = some w) :
    readText names values (a ++ b) = some (v ++ w) := by
  rw [readText] at ha hb ⊢
  rw [String.toList_append, lex_append h, List.mapM_append, ha, hb]
  rfl

theorem readText_plain (names : Dict String) (values : Dict AttributeValue) {text : String}
    (h : Plain text.toList) : readText names values text = some (ofText text) := by
  rw [readText, lex_plain h, ofText]
  induction text.toList with
  | nil => rfl
  | cons c rest ih =>
    rw [List.map_cons, List.mapM_cons, ih]
    rfl

/-- Two pairs of dictionaries with the same entries for the references of a text. -/
theorem readText_congr {names names' : Dict String} {values values' : Dict AttributeValue}
    {text : String}
    (h : ∀ placeholder ∈ references text.toList,
      (Lexeme.reference placeholder).read names values =
        (Lexeme.reference placeholder).read names' values') :
    readText names values text = readText names' values' text := by
  rw [references_eq_lex] at h
  rw [readText, readText]
  generalize lex text.toList = lexemes at h
  induction lexemes with
  | nil => rfl
  | cons lexeme rest ih =>
    cases lexeme with
    | char c =>
      rw [List.mapM_cons, List.mapM_cons, ih h]
      rfl
    | reference placeholder =>
      obtain ⟨hfirst, hrest⟩ := List.forall_mem_cons.mp h
      rw [List.mapM_cons, List.mapM_cons, hfirst, ih hrest]

namespace Fragment

/-- The fragment declares what it mentions as a context has it, and reads there as some pieces. -/
structure Conveys (ctx : Context) (fragment : Fragment) (written : List Piece) : Prop where
  exact_declared : fragment.Exact
  names : ∀ {placeholder field}, fragment.names.get? placeholder = some field →
    ctx.owners.get? placeholder = some field
  values : ∀ {placeholder value}, fragment.values.get? placeholder = some value →
    ctx.values.get? placeholder = some value
  reads : readText ctx.owners ctx.values fragment.text = some written

end Fragment

theorem compositional_conveys (ctx : Context) : Compositional (Fragment.Conveys ctx) where
  plain h := ⟨Fragment.exact_ofText h, nofun, nofun, readText_plain _ _ h⟩
  append {a b v w} h ha hb := by
    refine ⟨ha.exact_declared.append h hb.exact_declared, fun {p f} hp => ?_,
      fun {p x} hp => ?_, ?_⟩
    · rw [Fragment.names_append, Dict.get?_merge] at hp
      rcases Option.or_eq_some_iff.mp hp with hp | ⟨-, hp⟩
      · exact hb.names hp
      · exact ha.names hp
    · rw [Fragment.values_append, Dict.get?_merge] at hp
      rcases Option.or_eq_some_iff.mp hp with hp | ⟨-, hp⟩
      · exact hb.values hp
      · exact ha.values hp
    · exact readText_append h ha.reads hb.reads

/-! ## Leaves -/

section Leaves

variable {ctx : Context}

theorem conveys_name (hlinked : ctx.Linked) {placeholder field : String}
    (hform : IsName placeholder) (h : ctx.names.get? field = some placeholder) :
    (Fragment.ofName placeholder field).Conveys ctx [.name field] := by
  have howner : ctx.owners.get? placeholder = some field := hlinked h
  refine ⟨Fragment.exact_ofName hform.isReference field, fun {p f} hp => ?_, nofun, ?_⟩
  · rw [Fragment.ofName, Dict.get?_singleton] at hp
    split at hp
    · next heq =>
      cases hp
      rw [← heq, howner]
    · cases hp
  · rw [Fragment.ofName, readText, hform.isReference, List.mapM_cons, Lexeme.read,
      if_pos hform.head?, howner]
    rfl

theorem conveys_value {value : BoundValue} (hform : IsValue value.placeholder)
    (h : ctx.values.get? value.placeholder = some value.value) :
    value.fragment.Conveys ctx [.value value.value] := by
  refine ⟨Fragment.exact_value hform.isReference, nofun, fun {p v} hp => ?_, ?_⟩
  · rw [BoundValue.fragment, Dict.get?_singleton] at hp
    split at hp
    · next heq =>
      cases hp
      rw [← heq, h]
    · cases hp
  · rw [BoundValue.fragment, readText, hform.isReference, List.mapM_cons, Lexeme.read,
      if_neg (by rw [hform.head?]; decide), h]
    rfl

/-- The digits of an ordinal are no sigils. -/
theorem plain_ordinal (ordinal : Nat) : Plain ("[" ++ toString ordinal ++ "]").toList := by
  intro c hc
  rw [String.toList_append, String.toList_append, List.mem_append, List.mem_append] at hc
  rcases hc with (hc | hc) | hc
  · rw [List.mem_singleton.mp hc]
    rfl
  · have hdigit : c.isDigit := Nat.isDigit_of_mem_toDigits (by decide) (by decide)
      (show c ∈ Nat.toDigits 10 ordinal by simpa [Nat.repr] using hc)
    exact isSigil_of_isTokenChar (by simp [isTokenChar, Char.isAlphanum, hdigit])
  · rw [List.mem_singleton.mp hc]
    rfl

namespace Compositional

variable {R : Fragment → List Piece → Prop} (hR : Compositional R)

include hR

/-- The steps of a path behind a text that is there. -/
theorem steps {nameOf : String → Except ExpressionError String}
    (hname : ∀ {field placeholder}, nameOf field = .ok placeholder →
      ctx.names.get? field = some placeholder ∧ R (.ofName placeholder field) [.name field])
    {segments : List Segment} {a : Fragment} {v : List Piece} {text : String} (hne : a.text ≠ "")
    (ha : R a v) (h : Path.renderSegments nameOf a.text segments = .ok text) :
    R ⟨text, insertOwning ctx.names (segments.filterMap Segment.name?) a.names, a.values⟩
      (v ++ writtenSteps segments) := by
  induction segments generalizing a v with
  | nil =>
    cases h
    rw [writtenSteps, List.append_nil]
    exact ha
  | cons segment rest ih =>
    cases segment with
    | field name =>
      cases hrender : nameOf name with
      | error e => rw [Path.renderSegments, hrender] at h; cases h
      | ok placeholder =>
        obtain ⟨hbound, hleaf⟩ := hname hrender
        -- The name is appended behind a point; the rest of the path goes on from there.
        have hstep := hR.around "." (by decide) ha hleaf
        have hne' : (a ++ .ofText "." ++ .ofName placeholder name).text ≠ "" := by
          simp [Fragment.ofText]
        rw [Path.renderSegments_field hrender, if_neg hne] at h
        have htail := ih hne' hstep h
        have hnames : (Segment.field name :: rest).filterMap Segment.name? =
            name :: rest.filterMap Segment.name? := rfl
        rw [writtenSteps, hnames, insertOwning_cons hbound, ← List.append_assoc,
          ← List.append_assoc]
        exact htail
    | index ordinal =>
      -- A bracket ends the name before it, whatever that is.
      have hopen : closes (Fragment.ofText ("[" ++ toString ordinal ++ "]")).text.toList := by
        rw [Fragment.ofText, String.toList_append, String.toList_append]
        rfl
      have hstep := hR.append (.inl hopen) ha (hR.plain (plain_ordinal ordinal))
      have hne' : (a ++ .ofText ("[" ++ toString ordinal ++ "]")).text ≠ "" := by
        simp [Fragment.ofText]
      rw [Path.renderSegments, if_neg hne, String.append_assoc, String.append_assoc] at h
      have htail := ih hne' hstep (by rw [← h]; simp [Fragment.ofText, String.append_assoc])
      rw [writtenSteps, ← List.append_assoc]
      exact htail

/-- **A path conveys what it says if its names do.** -/
theorem path {resolved : ResolvedPath} (h : resolved.BoundIn ctx)
    (hname : ∀ {field placeholder}, ctx.names.get? field = some placeholder →
      placeholder ≠ "" ∧ R (.ofName placeholder field) [.name field]) :
    R resolved.fragment resolved.path.written := by
  obtain ⟨path, ⟨text, names, values⟩, _, _, _⟩ := resolved
  obtain ⟨-, -, -, hnames, hvalues, htext⟩ := h
  dsimp only at hnames hvalues htext
  subst hnames hvalues
  have hroot : path.isRoot = false := by
    cases hroot : path.isRoot with
    | false => rfl
    | true => rw [Path.withNames, Path.render, if_pos hroot] at htext; cases htext
  rw [Path.withNames, Path.render, if_neg (by simp [hroot])] at htext
  rw [Path.fieldNames_eq, Path.written]
  -- The first step is a name: there is nothing before it to take an element of.
  cases hsegments : path.segments with
  | nil =>
    rw [(Path.isRoot_iff path).mpr hsegments] at hroot
    cases hroot
  | cons segment rest =>
    rw [hsegments] at htext
    cases segment with
    | index ordinal => cases htext
    | field name =>
      cases hbound : ctx.names.get? name with
      | none => rw [Path.renderSegments, hbound] at htext; cases htext
      | some placeholder =>
        obtain ⟨hne, hleaf⟩ := hname hbound
        rw [Path.renderSegments_field (by rw [hbound]), if_pos rfl] at htext
        have hnames : (Segment.field name :: rest).filterMap Segment.name? =
            name :: rest.filterMap Segment.name? := rfl
        rw [hnames, insertOwning_cons hbound]
        refine hR.steps (fun {field p} hp => ?_) (a := .ofName placeholder name) hne hleaf htext
        cases hfield : ctx.names.get? field with
        | none => rw [hfield] at hp; cases hp
        | some other =>
          rw [hfield] at hp
          cases hp
          exact ⟨rfl, (hname hfield).2⟩

end Compositional

variable {paths : List ResolvedPath} {values : List BoundValue} {before : Context}

/-- A placeholder of a field is of the form of name placeholders. -/
theorem Context.Formed.name {N V : String → Prop} (hform : ctx.Formed N V) (hlinked : ctx.Linked)
    {field placeholder : String} (h : ctx.names.get? field = some placeholder) : N placeholder :=
  hform.owners placeholder (Dict.mem_keys_of_get? (hlinked h))

/-- What was resolved in a context is exact if a reader takes its placeholders as a whole. -/
theorem Resolved.onLeaves_exact (h : Resolved before paths values ctx) (hlinked : ctx.Linked)
    (hform : ctx.Formed IsReference IsReference) {texts : List Fragment}
    (htexts : ∀ text ∈ texts, text.Exact) :
    OnLeaves (fun fragment _ => fragment.Exact) paths values texts := by
  refine ⟨fun path hp => ?_, fun value hv => ?_, htexts⟩
  · apply compositional_exact.path (h.paths path hp)
    intro field placeholder hbound
    have href : IsReference placeholder := hform.name hlinked hbound
    exact ⟨href.ne_empty, Fragment.exact_ofName href field⟩
  · exact Fragment.exact_value
      (hform.values _ (Dict.mem_keys_of_get? (h.minted.bound value hv)))

/-- What was resolved in a context conveys there what it says. -/
theorem Resolved.onLeaves_conveys (h : Resolved before paths values ctx) (hlinked : ctx.Linked)
    (hform : ctx.Formed IsName IsValue) : OnLeaves (Fragment.Conveys ctx) paths values [] := by
  refine ⟨fun path hp => ?_, fun value hv => ?_, by simp⟩
  · apply (compositional_conveys ctx).path (h.paths path hp)
    intro field placeholder hbound
    have hname : IsName placeholder := hform.name hlinked hbound
    exact ⟨hname.isReference.ne_empty, conveys_name hlinked hname hbound⟩
  · have hbound := h.minted.bound value hv
    exact conveys_value (hform.values _ (Dict.mem_keys_of_get? hbound)) hbound

end Leaves

/-! ## What a fragment that conveys pieces declares -/

namespace Fragment.Conveys

variable {ctx : Context} {fragment : Fragment} {written : List Piece}
  (h : fragment.Conveys ctx written) (hform : ctx.Formed IsName IsValue)

include h hform

theorem isName {placeholder : String} (hp : placeholder ∈ fragment.names.keys) :
    IsName placeholder := by
  obtain ⟨field, hfield⟩ := (Dict.mem_keys_iff ..).mp hp
  exact hform.owners placeholder (Dict.mem_keys_of_get? (h.names hfield))

theorem isValue {placeholder : String} (hp : placeholder ∈ fragment.values.keys) :
    IsValue placeholder := by
  obtain ⟨value, hvalue⟩ := (Dict.mem_keys_iff ..).mp hp
  exact hform.values placeholder (Dict.mem_keys_of_get? (h.values hvalue))

/-- The declared names are the references behind `#`. -/
theorem mem_names_iff (placeholder : String) : placeholder ∈ fragment.names.keys ↔
    placeholder ∈ references fragment.text.toList ∧ placeholder.toList.head? = some '#' := by
  rw [h.exact_declared]
  constructor
  · intro hp
    exact ⟨.inl hp, (h.isName hform hp).head?⟩
  · rintro ⟨hp | hp, hhead⟩
    · exact hp
    · rw [(h.isValue hform hp).head?] at hhead
      cases hhead

/-- The declared values are the references behind `:`. -/
theorem mem_values_iff (placeholder : String) : placeholder ∈ fragment.values.keys ↔
    placeholder ∈ references fragment.text.toList ∧ placeholder.toList.head? = some ':' := by
  rw [h.exact_declared]
  constructor
  · intro hp
    exact ⟨.inr hp, (h.isValue hform hp).head?⟩
  · rintro ⟨hp | hp, hhead⟩
    · rw [(h.isName hform hp).head?] at hhead
      cases hhead
    · exact hp

/-- **A reader may look placeholders up where they are declared**, and also in larger dictionaries,
as long as what these say is what the context says. -/
theorem readText_eq {names : Dict String} {values : Dict AttributeValue}
    (hnames : ∀ placeholder ∈ fragment.names.keys,
      names.get? placeholder = ctx.owners.get? placeholder)
    (hvalues : ∀ placeholder ∈ fragment.values.keys,
      values.get? placeholder = ctx.values.get? placeholder) :
    readText names values fragment.text = some written := by
  rw [← h.reads]
  apply readText_congr
  intro placeholder hp
  rw [Lexeme.read, Lexeme.read]
  -- The sigil tells which dictionary a placeholder is looked up in and declared in.
  rcases (h.exact_declared placeholder).mp hp with hp | hp
  · rw [if_pos (h.isName hform hp).head?, if_pos (h.isName hform hp).head?, hnames placeholder hp]
  · have hhead : placeholder.toList.head? ≠ some '#' := by
      rw [(h.isValue hform hp).head?]
      decide
    rw [if_neg hhead, if_neg hhead, hvalues placeholder hp]

/-- A fragment that conveys pieces reads as them on its own. -/
theorem read_eq : fragment.read = some written := by
  apply h.readText_eq hform
  · intro placeholder hp
    obtain ⟨field, hfield⟩ := (Dict.mem_keys_iff ..).mp hp
    rw [hfield, h.names hfield]
  · intro placeholder hp
    obtain ⟨value, hvalue⟩ := (Dict.mem_keys_iff ..).mp hp
    rw [hvalue, h.values hvalue]

end Fragment.Conveys

end DocExpr
