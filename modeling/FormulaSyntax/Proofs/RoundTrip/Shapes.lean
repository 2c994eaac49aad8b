import FormulaSyntax.Proofs.Binary64.ReadBack
import FormulaSyntax.Shape.Formula
import FormulaSyntax.Shape.Token

/-!
# Shapes are read back

Whatever is exchanged as a shape is read back from it, as long as its numbers are finite
(`shapes_round_trip`). A shape may be read that is not the one written: a structure as a list, a
bare alternative with null in it, an integer for a number. **Then the value read is written as
another shape, and from that one it is read back as well.** What has to be shown for this is that
no number is infinite that is read from data, and the only ones that could be are large integers.

A token is read in two stages, first its parts and then whether they belong together. Which kinds
and payloads do is said once more by `TokenKind.Carries`, without lexemes.
-/

set_option autoImplicit false

namespace FormulaSyntax

/-! ## Lists of shapes -/

section Lists

variable {α β : Type} {write : α → β} {read : β → Option α}

theorem mapM_map_eq_some {items : List α} (h : ∀ a ∈ items, read (write a) = some a) :
    (items.map write).mapM read = some items := by
  induction items with
  | nil => rfl
  | cons a items ih =>
    have hrest := ih fun b hb => h b (List.mem_cons_of_mem a hb)
    rw [List.map_cons, List.mapM_cons, h a List.mem_cons_self, hrest]
    rfl

theorem exists_of_mem_mapM {shapes : List β} {items : List α}
    (h : shapes.mapM read = some items) : ∀ a ∈ items, ∃ s ∈ shapes, read s = some a := by
  induction shapes generalizing items with
  | nil =>
    obtain rfl : [] = items := Option.some.inj h
    exact nofun
  | cons s shapes ih =>
    rw [List.mapM_cons] at h
    obtain ⟨first, hfirst, h⟩ := Option.bind_eq_some_iff.mp h
    obtain ⟨others, hothers, h⟩ := Option.bind_eq_some_iff.mp h
    obtain rfl : first :: others = items := Option.some.inj h
    intro a ha
    rcases List.mem_cons.mp ha with rfl | ha
    · exact ⟨s, List.mem_cons_self, hfirst⟩
    · obtain ⟨s', hs', hread⟩ := ih hothers a ha
      exact ⟨s', List.mem_cons_of_mem s hs', hread⟩

end Lists

/-! ## Data from texts -/

namespace Shape

/-- Every integer in the data fits into 64 bits, with or without a sign. Data that is read from a
    text has no other integers (`bounded_of_ofNumeral?`). -/
inductive Bounded : Shape → Prop
  | null : Bounded null
  | truth (value : Bool) : Bounded (truth value)
  | integer {value : Int} : -(negativeBound : Int) ≤ value → value < integerBound →
      Bounded (integer value)
  | float (negative : Bool) (index : Fin Binary64.finiteCount) : Bounded (float negative index)
  | text (value : String) : Bounded (text value)
  | list {items : List Shape} : (∀ s ∈ items, Bounded s) → Bounded (list items)
  | record {entries : List (String × Shape)} : (∀ entry ∈ entries, Bounded entry.2) →
      Bounded (record entries)

variable {s inner : Shape}

/-- An integer that 64 bits do not hold is read as a float, so integers in the data are
    bounded. -/
theorem bounded_of_ofNumeral? {negative : Bool} {n : DecimalNumeral}
    (h : ofNumeral? negative n = some s) : s.Bounded := by
  simp only [ofNumeral?] at h
  split at h
  · next hbound =>
    obtain rfl := Option.some.inj h
    have hhigh := hbound.2.2
    exact .integer (by omega) (by omega)
  split at h
  · next hbound =>
    obtain rfl := Option.some.inj h
    have hlow := hbound.2.2.2
    exact .integer (by omega) (by omega)
  split at h
  · obtain rfl := Option.some.inj h
    exact .float _ _
  all_goals exact nomatch h

/-- What is looked up is one of the entries, the first of its key. -/
theorem mem_of_lookup {key : String} {entries : List (String × Shape)}
    (h : lookup key entries = some s) : (key, s) ∈ entries := by
  induction entries with
  | nil => exact nomatch h
  | cons entry rest ih =>
    obtain ⟨k, value⟩ := entry
    unfold lookup at h
    split at h
    · next hk =>
      obtain rfl := Option.some.inj h
      rw [hk]
      exact List.mem_cons_self
    · exact List.mem_cons_of_mem _ (ih h)

theorem Bounded.of_entry {key : String} (hs : s.Bounded) (h : s.entry? key = some inner) :
    inner.Bounded := by
  cases hs with
  | record hentries => exact hentries _ (mem_of_lookup h)
  | null | truth | integer | float | text | list => exact nomatch h

/-- The fields of a structure are inside it, in whichever of its two forms it is given. -/
theorem Bounded.fieldsOf? {names : List String} {fields : List Shape} (hs : s.Bounded)
    (h : s.fieldsOf? names = some fields) : ∀ field ∈ fields, field.Bounded := by
  cases hs with
  | record hentries =>
    intro field hfield
    obtain ⟨name, -, hlookup⟩ := exists_of_mem_mapM h field hfield
    exact hentries _ (mem_of_lookup hlookup)
  | list hitems =>
    simp only [Shape.fieldsOf?, Option.ite_none_right_eq_some, Option.some.injEq] at h
    rw [← h.2]
    exact hitems
  | null | truth | integer | float | text => exact nomatch h

theorem Bounded.items? {items : List Shape} (hs : s.Bounded)
    (h : s.items? = some items) : ∀ item ∈ items, item.Bounded := by
  cases hs with
  | list hitems =>
    obtain rfl := Option.some.inj h
    exact hitems
  | null | truth | integer | float | text | record => exact nomatch h

theorem Bounded.content? {tag : String} (hs : s.Bounded)
    (h : s.content? = some (tag, inner)) : inner.Bounded := by
  unfold Shape.content? at h
  split at h
  · next tag' content hv =>
    obtain ⟨rfl, rfl⟩ := Prod.mk.injEq .. ▸ Option.some.inj h
    unfold variant? at hv
    split at hv
    · simp at hv
    · next tag'' content' =>
      obtain ⟨rfl, rfl⟩ : tag'' = tag' ∧ content' = content := by simpa using hv
      cases hs with
      | record hentries => exact hentries _ List.mem_cons_self
    · simp at hv
  · exact nomatch h

/-- **No number that is read from data is infinite**: an integer of 64 bits is nearer to a finite
    one. -/
theorem Bounded.isFinite_of_number? {x : Binary64} (hs : s.Bounded)
    (h : s.number? = some x) : x.isFinite = true := by
  cases hs with
  | @integer value hlow hhigh =>
    obtain rfl := Option.some.inj h
    apply Binary64.isFinite_ofInt
    simp only [negativeBound, integerBound] at hlow hhigh
    omega
  | float => obtain rfl := Option.some.inj h; rfl
  | null | truth | text | list | record => exact nomatch h

end Shape

/-! ## Literals and payloads -/

/-- A literal that is no number, or a finite one. -/
def Literal.IsFinite : Literal → Prop
  | number value => value.isFinite = true
  | text _ | truth _ => True

def Payload.IsFinite : Payload → Prop
  | number value => value.isFinite = true
  | none | text _ | truth _ => True

/-- A number is written as one if it is finite. The others are written as null, and null is no
    number. -/
theorem Shape.number?_of_isFinite {x : Binary64} (h : x.isFinite = true) :
    (ofBinary64 x).number? = some x := by
  rw [number?_ofBinary64, if_pos h]

namespace Literal

theorem ofShape?_toShape {value : Literal} (h : value.IsFinite) :
    ofShape? value.toShape = some value := by
  cases value with
  | number x =>
    have hnumber := Shape.number?_of_isFinite h
    simp [ofShape?, toShape, ofTagged?, hnumber]
  | text | truth => rfl

theorem isFinite_of_ofShape? {s : Shape} {value : Literal} (hs : s.Bounded)
    (h : ofShape? s = some value) : value.IsFinite := by
  obtain ⟨⟨tag, content⟩, hcontent, hread⟩ := Option.bind_eq_some_iff.mp h
  change ofTagged? tag content = _ at hread
  unfold ofTagged? at hread
  split at hread
  · obtain ⟨text, -, rfl⟩ := Option.map_eq_some_iff.mp hread
    trivial
  split at hread
  · obtain ⟨x, hx, rfl⟩ := Option.map_eq_some_iff.mp hread
    exact (hs.content? hcontent).isFinite_of_number? hx
  split at hread
  · obtain ⟨truth, -, rfl⟩ := Option.map_eq_some_iff.mp hread
    trivial
  · exact nomatch hread

end Literal

namespace Payload

theorem ofShape?_toShape {payload : Payload} (h : payload.IsFinite) :
    ofShape? payload.toShape = some payload := by
  cases payload with
  | number x =>
    have hnumber := Shape.number?_of_isFinite h
    have hbare : (toShape (number x)).bareTag? ≠ some "None" := by
      cases x <;> simp [toShape, Shape.tagged, Shape.ofBinary64, Shape.bareTag?, Shape.variant?]
    rw [ofShape?, if_neg hbare]
    simp [toShape, ofTagged?, hnumber]
  | none | text | truth => rfl

theorem isFinite_of_ofShape? {s : Shape} {payload : Payload} (hs : s.Bounded)
    (h : ofShape? s = some payload) : payload.IsFinite := by
  unfold ofShape? at h
  split at h
  · obtain rfl := Option.some.inj h
    trivial
  obtain ⟨⟨tag, content⟩, hcontent, hread⟩ := Option.bind_eq_some_iff.mp h
  change ofTagged? tag content = _ at hread
  unfold ofTagged? at hread
  split at hread
  · obtain ⟨text, -, rfl⟩ := Option.map_eq_some_iff.mp hread
    trivial
  split at hread
  · obtain ⟨x, hx, rfl⟩ := Option.map_eq_some_iff.mp hread
    exact (hs.content? hcontent).isFinite_of_number? hx
  split at hread
  · obtain ⟨truth, -, rfl⟩ := Option.map_eq_some_iff.mp hread
    trivial
  · exact nomatch hread

end Payload

/-! ## Expressions and formulas -/

namespace Expr

/-- Every number in the expression is finite. -/
def IsFinite : Expr → Prop
  | ident _ => True
  | assign _ value => value.IsFinite
  | binary left _ right => left.IsFinite ∧ right.IsFinite
  | prefixed _ operand => operand.IsFinite
  | literal value => value.IsFinite

theorem ofShape?_toShape {e : Expr} (h : e.IsFinite) : ofShape? e.toShape = some e := by
  induction e with
  | ident id =>
    rw [ofShape?]
    simp [toShape, Ident.ofShape?_toShape]
  | literal value =>
    rw [ofShape?]
    simp [toShape, Literal.ofShape?_toShape (show value.IsFinite from h)]
  | assign target value ih =>
    have hvalue := ih h
    rw [ofShape?]
    simp [toShape, Shape.entry?, Shape.lookup, Ident.ofShape?_toShape, hvalue]
  | binary left op right ihl ihr =>
    have hleft := ihl h.1
    have hright := ihr h.2
    rw [ofShape?]
    simp [toShape, Shape.entry?, Shape.lookup, BinaryOp.ofShape?_toShape, hleft, hright]
  | prefixed op operand ih =>
    have hoperand := ih h
    rw [ofShape?]
    cases op <;> simp [toShape, PrefixOp.ofTag?, PrefixOp.tag, hoperand]

/-- The parts of an expression are read from parts of the shape that it is read from. -/
theorem exists_content_of_ofShape? {s : Shape} {e : Expr} (h : ofShape? s = some e) :
    ∃ tag content, s.content? = some (tag, content) ∧
      match e with
      | ident id => Ident.ofShape? content = some id
      | literal value => Literal.ofShape? content = some value
      | assign _ value => ∃ inner, content.entry? "value" = some inner ∧
          ofShape? inner = some value
      | binary left _ right => ∃ l r, content.entry? "left" = some l ∧
          content.entry? "right" = some r ∧ ofShape? l = some left ∧ ofShape? r = some right
      | prefixed _ operand => ofShape? content = some operand := by
  rw [ofShape?] at h
  split at h
  · cases h
  next tag content hcontent =>
  refine ⟨tag, content, hcontent, ?_⟩
  split at h
  · obtain ⟨id, hid, rfl⟩ := Option.map_eq_some_iff.mp h
    exact hid
  split at h
  · obtain ⟨value, hvalue, rfl⟩ := Option.map_eq_some_iff.mp h
    exact hvalue
  split at h
  · split at h
    · cases h
    next inner hinner =>
    obtain ⟨target, -, h⟩ := Option.bind_eq_some_iff.mp h
    obtain ⟨value, hvalue, h⟩ := Option.bind_eq_some_iff.mp h
    obtain rfl := Option.some.inj h
    exact ⟨inner, hinner, hvalue⟩
  split at h
  · split at h
    · next l r hl hr =>
      obtain ⟨left, hleft, h⟩ := Option.bind_eq_some_iff.mp h
      obtain ⟨op, -, h⟩ := Option.bind_eq_some_iff.mp h
      obtain ⟨right, hright, h⟩ := Option.bind_eq_some_iff.mp h
      obtain rfl := Option.some.inj h
      exact ⟨l, r, hl, hr, hleft, hright⟩
    · cases h
  split at h
  · obtain ⟨operand, hoperand, rfl⟩ := Option.map_eq_some_iff.mp h
    exact hoperand
  · cases h

theorem isFinite_of_ofShape? {s : Shape} {e : Expr} (hs : s.Bounded)
    (h : ofShape? s = some e) : e.IsFinite := by
  induction e generalizing s with
  | ident => trivial
  | literal value =>
    obtain ⟨_, _, hcontent, hvalue⟩ := exists_content_of_ofShape? h
    exact Literal.isFinite_of_ofShape? (hs.content? hcontent) hvalue
  | assign target value ih =>
    obtain ⟨_, _, hcontent, inner, hinner, hvalue⟩ := exists_content_of_ofShape? h
    exact ih ((hs.content? hcontent).of_entry hinner) hvalue
  | binary left op right ihl ihr =>
    obtain ⟨_, _, hcontent, l, r, hl, hr, hleft, hright⟩ := exists_content_of_ofShape? h
    have hc := hs.content? hcontent
    exact ⟨ihl (hc.of_entry hl) hleft, ihr (hc.of_entry hr) hright⟩
  | prefixed op operand ih =>
    obtain ⟨_, _, hcontent, hoperand⟩ := exists_content_of_ofShape? h
    exact ih (hs.content? hcontent) hoperand

end Expr

namespace Formula

def IsFinite (f : Formula) : Prop := ∀ e ∈ f.items, e.IsFinite

theorem ofShape?_toShape {f : Formula} (h : f.IsFinite) : ofShape? f.toShape = some f := by
  have hitems := mapM_map_eq_some fun e he => Expr.ofShape?_toShape (h e he)
  simp [ofShape?, toShape, Shape.fieldsOf?, Shape.lookup, Shape.items?, hitems]

theorem isFinite_of_ofShape? {s : Shape} {f : Formula} (hs : s.Bounded)
    (h : ofShape? s = some f) : f.IsFinite := by
  unfold ofShape? at h
  split at h
  · next field hfields =>
    have hfield := hs.fieldsOf? hfields field List.mem_cons_self
    obtain ⟨shapes, hshapes, h⟩ := Option.bind_eq_some_iff.mp h
    obtain ⟨items, hitems, h⟩ := Option.bind_eq_some_iff.mp h
    obtain rfl := Option.some.inj h
    intro e he
    obtain ⟨shape, hmem, hread⟩ := exists_of_mem_mapM hitems e he
    exact Expr.isFinite_of_ofShape? (hfield.items? hshapes shape hmem) hread
  · exact nomatch h

end Formula

/-! ## Tokens -/

/-- Which payloads a token of a kind may have. -/
inductive TokenKind.Carries : TokenKind → Payload → Prop
  | symbol (s : Symbol) : Carries (.symbol s) .none
  | name (text : String) : Carries .name (.text text)
  | string (text : String) : Carries .string (.text text)
  | number (value : Binary64) : Carries .number (.number value)
  | truth (value : Bool) : Carries (.truth value) (.truth value)

namespace Token

variable {s : Shape} {kind : TokenKind} {span : Span} {payload : Payload} {t : Token}

def IsFinite (t : Token) : Prop := t.payload.IsFinite

/-- The kind and the payload of a token come from one lexeme, so they belong together. -/
theorem carries (t : Token) : t.kind.Carries t.payload := by
  obtain ⟨lexeme, span⟩ := t
  cases lexeme <;> constructor

theorem exists_of_carries (h : kind.Carries payload) (span : Span) :
    ∃ t : Token, t.kind = kind ∧ t.span = span ∧ t.payload = payload := by
  cases h with
  | symbol s => exact ⟨.symbol s span, rfl, rfl, rfl⟩
  | name text => exact ⟨.name text span, rfl, rfl, rfl⟩
  | string text => exact ⟨.string text span, rfl, rfl, rfl⟩
  | number value => exact ⟨.number value span, rfl, rfl, rfl⟩
  | truth value => exact ⟨.truth value span, rfl, rfl, rfl⟩

/-- The parts determine the token, and the token its parts. -/
theorem ofParts?_eq_ok_iff :
    ofParts? kind span payload = .ok t ↔ t.kind = kind ∧ t.span = span ∧ t.payload = payload := by
  constructor
  · intro h
    unfold ofParts? at h
    split at h
    · next lexeme hlexeme =>
      obtain rfl := Except.ok.inj h
      obtain ⟨hkind, hpayload⟩ := Lexeme.parts_of_ofParts? hlexeme
      exact ⟨hkind, rfl, hpayload⟩
    · exact nomatch h
  · rintro ⟨rfl, rfl, rfl⟩
    exact ofParts?_parts t

theorem ofParts?_of_not_carries (h : ¬kind.Carries payload) :
    ofParts? kind span payload = .error ⟨kind, payload⟩ := by
  unfold ofParts?
  split
  · next lexeme hlexeme =>
    obtain ⟨rfl, rfl⟩ := Lexeme.parts_of_ofParts? hlexeme
    exact absurd (carries ⟨lexeme, span⟩) h
  · rfl

theorem ofShape_eq_ok_iff :
    ofShape s = .ok t ↔ partsOfShape? s = some (t.kind, t.span, t.payload) := by
  cases hparts : partsOfShape? s with
  | none => simp [ofShape, hparts]
  | some parts =>
    obtain ⟨kind, span, payload⟩ := parts
    have hread : ofShape s = .ok t ↔ ofParts? kind span payload = .ok t := by
      simp only [ofShape, hparts]
      split <;> simp [*]
    rw [hread, ofParts?_eq_ok_iff]
    simp only [Option.some.injEq, Prod.mk.injEq]
    exact ⟨fun ⟨hk, hs, hp⟩ => ⟨hk.symm, hs.symm, hp.symm⟩,
      fun ⟨hk, hs, hp⟩ => ⟨hk.symm, hs.symm, hp.symm⟩⟩

/-- What does not belong together is named in the error, kind and payload as they were read. -/
theorem ofShape_of_not_carries (hparts : partsOfShape? s = some (kind, span, payload))
    (h : ¬kind.Carries payload) : ofShape s = .error (.mismatch ⟨kind, payload⟩) := by
  simp [ofShape, hparts, ofParts?_of_not_carries h]

theorem toOption_ofShape_toShape (h : t.IsFinite) :
    (ofShape t.toShape).toOption = some t := by
  have hparts : partsOfShape? t.toShape = some (t.kind, t.span, t.payload) := by
    simp [partsOfShape?, toShape, Shape.fieldsOf?, Shape.lookup, TokenKind.ofShape?_toShape,
      Span.ofShape?_toShape, Payload.ofShape?_toShape h]
  rw [ofShape_eq_ok_iff.mpr hparts]
  rfl

theorem isFinite_of_ofShape (hs : s.Bounded) (h : (ofShape s).toOption = some t) :
    t.IsFinite := by
  have hok : ofShape s = .ok t := by
    cases hread : ofShape s with
    | ok t' => simpa [hread, Except.toOption] using h
    | error e => simp [hread, Except.toOption] at h
  have hparts := ofShape_eq_ok_iff.mp hok
  unfold partsOfShape? at hparts
  split at hparts
  · next kindField spanField field hfields =>
    have hfield : field.Bounded := hs.fieldsOf? hfields field (by simp)
    obtain ⟨kind, -, hparts⟩ := Option.bind_eq_some_iff.mp hparts
    obtain ⟨span, -, hparts⟩ := Option.bind_eq_some_iff.mp hparts
    obtain ⟨payload, hpayload, hparts⟩ := Option.bind_eq_some_iff.mp hparts
    obtain ⟨-, -, rfl⟩ := Prod.mk.injEq .. ▸ Option.some.inj hparts
    exact Payload.isFinite_of_ofShape? hfield hpayload
  · exact nomatch hparts

end Token

/-! ## All types together -/

/-- Writing a value and reading it are a round trip, in both directions: what is written is read
    back if it is finite; what is read is finite, and is read back from what is written for it,
    whatever the form it was read from. -/
structure RoundTrips {α : Type} (write : α → Shape) (read : Shape → Option α)
    (Finite : α → Prop) : Prop where
  read_write : ∀ x, Finite x → read (write x) = some x
  write_read : ∀ s x, s.Bounded → read s = some x → Finite x ∧ read (write x) = some x

section

variable {α : Type} {write : α → Shape} {read : Shape → Option α}

/-- The second direction follows from the first: what is read is finite, and what is finite is
    read back. -/
theorem RoundTrips.of_isFinite {Finite : α → Prop}
    (hwrite : ∀ {x}, Finite x → read (write x) = some x)
    (hread : ∀ {s x}, s.Bounded → read s = some x → Finite x) :
    RoundTrips write read Finite where
  read_write _ h := hwrite h
  write_read _ _ hs h := ⟨hread hs h, hwrite (hread hs h)⟩

/-- Types without numbers in them. -/
theorem RoundTrips.of_read_write (h : ∀ x, read (write x) = some x) :
    RoundTrips write read fun _ => True where
  read_write x _ := h x
  write_read _ x _ _ := ⟨trivial, h x⟩

end

/-- **Whatever is finite is read back from its shape**, and whatever is read from some shape is
    finite and read back from its own; the parts of a token that is read belong together, and
    parts that do not are turned down with a mismatch that names the two. -/
theorem shapes_round_trip :
    RoundTrips Formula.toShape Formula.ofShape? Formula.IsFinite ∧
    RoundTrips Expr.toShape Expr.ofShape? Expr.IsFinite ∧
    RoundTrips Literal.toShape Literal.ofShape? Literal.IsFinite ∧
    RoundTrips Ident.toShape Ident.ofShape? (fun _ => True) ∧
    RoundTrips BinaryOp.toShape BinaryOp.ofShape? (fun _ => True) ∧
    RoundTrips Span.toShape Span.ofShape? (fun _ => True) ∧
    RoundTrips TokenKind.toShape TokenKind.ofShape? (fun _ => True) ∧
    RoundTrips Payload.toShape Payload.ofShape? Payload.IsFinite ∧
    RoundTrips Token.toShape (fun s => (Token.ofShape s).toOption) Token.IsFinite ∧
    (∀ s t, Token.ofShape s = .ok t →
      Token.partsOfShape? s = some (t.kind, t.span, t.payload) ∧ t.kind.Carries t.payload) ∧
    (∀ s kind span payload, Token.partsOfShape? s = some (kind, span, payload) →
      (kind.Carries payload → ∃ t, Token.ofShape s = .ok t) ∧
      (¬kind.Carries payload → Token.ofShape s = .error (.mismatch ⟨kind, payload⟩))) := by
  refine ⟨.of_isFinite Formula.ofShape?_toShape Formula.isFinite_of_ofShape?,
    .of_isFinite Expr.ofShape?_toShape Expr.isFinite_of_ofShape?,
    .of_isFinite Literal.ofShape?_toShape Literal.isFinite_of_ofShape?,
    .of_read_write Ident.ofShape?_toShape, .of_read_write BinaryOp.ofShape?_toShape,
    .of_read_write Span.ofShape?_toShape, .of_read_write TokenKind.ofShape?_toShape,
    .of_isFinite Payload.ofShape?_toShape Payload.isFinite_of_ofShape?,
    .of_isFinite Token.toOption_ofShape_toShape Token.isFinite_of_ofShape, ?_, ?_⟩
  · intro s t h
    exact ⟨Token.ofShape_eq_ok_iff.mp h, t.carries⟩
  · intro s kind span payload hparts
    refine ⟨fun hcarries => ?_, Token.ofShape_of_not_carries hparts⟩
    obtain ⟨t, rfl, rfl, rfl⟩ := Token.exists_of_carries hcarries span
    exact ⟨t, Token.ofShape_eq_ok_iff.mpr hparts⟩

/-- A token that is read from a form in which none is written: the fields in a list, null as the
    content of a kind that has none, an integer for a number. -/
example :
    Token.ofShape (.list [.record [("Number", .null)], .list [.integer 4, .integer 5],
      .record [("Number", .integer 7)]]) = .ok (.number (.ofInt 7) ⟨4, 5⟩) := by
  decide +kernel

end FormulaSyntax
