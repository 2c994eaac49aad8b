import FormulaSyntax.Proofs.RoundTrip.Canonical

/-!
# The canonical text is faithful

Reading a canonical text again does not tell all formulas apart: a character written by code point
is read as the characters of its escape, and there may be a text of just these. All the same
**the canonical texts of formulas that sources are parsed to are equal only if the formulas are**
(`canonical_eq_iff`), because in the second text the backslash is written twice.

The proof has two halves. What equal canonical texts are read as is one formula, so the two that
they come from agree in everything but the texts in them (`parse_canonical`). And a quoted text can
be told from what stands behind it, since its characters can be made out one by one (`shown?`). So
the induction is on two expressions that are read alike, each in front of a rest, and finds that
the expressions are equal and that the rests are.
-/

set_option autoImplicit false

namespace FormulaSyntax

/-! ## Quoted texts -/

namespace Text

theorem digitValue?_digitChar : ∀ d < 16, digitValue? (Nat.digitChar d) = some d := by decide

/-- The digits of a code point have its value. -/
theorem digitsValue_toDigits (n : Nat) : digitsValue 16 (Nat.toDigits 16 n) = n := by
  rw [digitsValue_eq_foldl]
  induction n using Nat.strongRecOn with
  | ind n ih =>
    rw [Nat.toDigits_eq_if (by decide)]
    split
    · next hlt => simp [withDigit, digitValue?_digitChar n hlt]
    · next hge =>
      have hlast := digitValue?_digitChar (n % 16) (Nat.mod_lt _ (by decide))
      rw [List.foldl_append, ih (n / 16) (by omega), List.foldl_cons, List.foldl_nil, withDigit,
        hlast, Option.getD_some]
      omega

/-- The character that the beginning of a text in quotes shows. -/
def shown? : List Char → Option Char
  | [] => none
  | first :: rest =>
    if first = '\\' then
      match rest with
      | [] => none
      | letter :: rest =>
        if letter = 'u' then
          some (Char.ofNat (digitsValue 16 (rest.tail.takeWhile fun c => c != '\x7d')))
        else Escape.decode? letter
    else some first

variable {a b rest rest' : List Char}

theorem takeWhile_digits (n : Nat) (rest : List Char) :
    (Nat.toDigits 16 n ++ '\x7d' :: rest).takeWhile (fun c => c != '\x7d') = Nat.toDigits 16 n := by
  have hdigits : ∀ c ∈ Nat.toDigits 16 n, (c != '\x7d') = true := by
    intro c hc
    obtain ⟨d, rfl⟩ := mem_toDigits hc
    exact bne_iff_ne.mpr (Nat.digitChar_ne _ (by decide))
  rw [List.takeWhile_append_of_pos hdigits, List.takeWhile_cons_of_neg (by decide), List.append_nil]

/-- **A character can be made out in a quoted text**, whatever stands behind it. -/
theorem shown?_quotedChar (c : Char) (rest : List Char) :
    shown? (quotedChar '"' c ++ rest) = some c := by
  rcases quotedChar_cases c with ⟨-, letter, hc, hletter⟩ | ⟨-, -, hc⟩ | ⟨hplain, -, hc⟩
  · have hne : letter ≠ 'u' := by
      rintro rfl
      exact nomatch hletter
    rw [hc]
    simp [shown?, hne, hletter]
  · rw [hc]
    simp [shown?, codePointEscape, takeWhile_digits, digitsValue_toDigits]
  · have hne : c ≠ '\\' := by
      rintro rfl
      exact hplain (by decide)
    rw [hc]
    simp [shown?, hne]

theorem head?_quotedChar_ne (c : Char) (rest : List Char) :
    (quotedChar '"' c ++ rest).head? ≠ some '"' := by
  rcases quotedChar_cases c with ⟨-, letter, hc, -⟩ | ⟨-, -, hc⟩ | ⟨hplain, -, hc⟩
  · simp [hc]
  · simp [hc, codePointEscape]
  · rw [hc]
    intro heq
    obtain rfl : c = '"' := Option.some.inj heq
    exact hplain (by decide)

theorem flatMap_quotedChar_inj
    (h : a.flatMap (quotedChar '"') ++ '"' :: rest = b.flatMap (quotedChar '"') ++ '"' :: rest') :
    a = b ∧ rest = rest' := by
  induction a generalizing b with
  | nil =>
    cases b with
    | nil => exact ⟨rfl, List.tail_eq_of_cons_eq h⟩
    | cons d b =>
      rw [List.flatMap_cons, List.append_assoc] at h
      exact absurd (congrArg List.head? h).symm (head?_quotedChar_ne d _)
  | cons c a ih =>
    rw [List.flatMap_cons, List.append_assoc] at h
    cases b with
    | nil => exact absurd (congrArg List.head? h) (head?_quotedChar_ne c _)
    | cons d b =>
      rw [List.flatMap_cons, List.append_assoc] at h
      have hfirst := congrArg shown? h
      rw [shown?_quotedChar, shown?_quotedChar] at hfirst
      obtain rfl : c = d := Option.some.inj hfirst
      obtain ⟨rfl, hrest⟩ := ih (List.append_cancel_left h)
      exact ⟨rfl, hrest⟩

/-- **A quoted text can be told from what is behind it**, and the text can be told from it. -/
theorem quoted_append_inj {a b : String}
    (h : (quoted a).toList ++ rest = (quoted b).toList ++ rest') : a = b ∧ rest = rest' := by
  have hbody : a.toList.flatMap (quotedChar '"') ++ '"' :: rest
      = b.toList.flatMap (quotedChar '"') ++ '"' :: rest' := by
    simpa [quoted, quotedWith] using h
  obtain ⟨htext, hrest⟩ := flatMap_quotedChar_inj hbody
  exact ⟨String.toList_inj.mp htext, hrest⟩

end Text

/-! ## Expressions and items -/

variable {rest rest' : List Char}

theorem Literal.canonical_append_inj {v v' : Literal} (h : v.reread = v'.reread)
    (hchars : v.canonical.toList ++ rest = v'.canonical.toList ++ rest') :
    v = v' ∧ rest = rest' := by
  -- A number and a truth value are read as they are, so they are equal from the start.
  have hsame : v = v' → v = v' ∧ rest = rest' := by
    rintro rfl
    exact ⟨rfl, List.append_cancel_left hchars⟩
  cases v <;> cases v'
  case text.text a b =>
    obtain ⟨rfl, hrest⟩ := Text.quoted_append_inj hchars
    exact ⟨rfl, hrest⟩
  case number.number | truth.truth => exact hsame h
  all_goals exact nomatch h

/-- **Expressions that are read alike and written alike are equal**, and so are the rests that they
    are written in front of. -/
theorem Expr.charsBefore_inj {e e' : Expr} (h : e.reread = e'.reread)
    (hchars : e.charsBefore rest = e'.charsBefore rest') : e = e' ∧ rest = rest' := by
  induction e generalizing e' rest rest' with
  | ident id =>
    cases e' with
    | ident id' =>
      obtain rfl := Expr.ident.inj h
      exact ⟨rfl, List.append_cancel_left hchars⟩
    | assign | binary | prefixed | literal => exact nomatch h
  | literal v =>
    cases e' with
    | literal v' =>
      obtain ⟨rfl, hrest⟩ := Literal.canonical_append_inj (Expr.literal.inj h) hchars
      exact ⟨rfl, hrest⟩
    | ident | assign | binary | prefixed => exact nomatch h
  | assign target value ih =>
    cases e' with
    | assign target' value' =>
      obtain ⟨rfl, hvalue⟩ := Expr.assign.inj h
      have hbehind := List.append_cancel_left hchars
      simp only [List.cons.injEq, true_and] at hbehind
      obtain ⟨rfl, hrest⟩ := ih hvalue hbehind
      exact ⟨rfl, hrest⟩
    | ident | binary | prefixed | literal => exact nomatch h
  | prefixed op operand ih =>
    cases e' with
    | prefixed op' operand' =>
      obtain ⟨rfl, hoperand⟩ := Expr.prefixed.inj h
      obtain ⟨rfl, hrest⟩ := ih hoperand (List.tail_eq_of_cons_eq hchars)
      exact ⟨rfl, hrest⟩
    | ident | assign | binary | literal => exact nomatch h
  | binary left op right ihl ihr =>
    cases e' with
    | binary left' op' right' =>
      obtain ⟨hleft, rfl, hright⟩ := Expr.binary.inj h
      obtain ⟨rfl, hbehind⟩ := ihl hleft (List.tail_eq_of_cons_eq hchars)
      have hoperand := List.append_cancel_left (List.tail_eq_of_cons_eq hbehind)
      obtain ⟨rfl, hclose⟩ := ihr hright (List.tail_eq_of_cons_eq hoperand)
      exact ⟨rfl, List.tail_eq_of_cons_eq hclose⟩
    | ident | assign | prefixed | literal => exact nomatch h

namespace Formula

theorem linesOf_inj {items items' : List Expr} (h : items.map Expr.reread = items'.map Expr.reread)
    (hchars : linesOf items = linesOf items') : items = items' := by
  induction items generalizing items' with
  | nil => exact (List.map_eq_nil_iff.mp h.symm).symm
  | cons item items ih =>
    cases items' with
    | nil => exact nomatch h
    | cons item' items' =>
      obtain ⟨hitem, hitems⟩ := List.cons.inj h
      obtain ⟨rfl, hrest⟩ := Expr.charsBefore_inj hitem (List.tail_eq_of_cons_eq hchars)
      rw [ih hitems hrest]

/-- **Formulas that are read alike and written alike are equal.** -/
theorem chars_inj {f g : Formula} (h : f.reread = g.reread) (hchars : f.chars = g.chars) :
    f = g := by
  obtain ⟨items⟩ := f
  obtain ⟨items'⟩ := g
  have hitems : items.map Expr.reread = items'.map Expr.reread := Formula.mk.inj h
  cases items with
  | nil => rw [List.map_eq_nil_iff.mp hitems.symm]
  | cons first rest =>
    cases items' with
    | nil => exact nomatch hitems
    | cons first' rest' =>
      obtain ⟨hfirst, hrest⟩ := List.cons.inj hitems
      obtain ⟨rfl, hlines⟩ := Expr.charsBefore_inj hfirst hchars
      rw [linesOf_inj hrest hlines]

end Formula

/-! ## Main result -/

/-- **Formulas that sources are parsed to have the same canonical text just if they are equal.** -/
theorem canonical_eq_iff {a b : String} {f g : Formula} (hf : parse a = .ok f)
    (hg : parse b = .ok g) : f.canonical = g.canonical ↔ f = g := by
  constructor
  · intro h
    have hreread : f.reread = g.reread := by
      have hparse := parse_canonical (wellFormed_of_parse hf)
      rw [h, parse_canonical (wellFormed_of_parse hg)] at hparse
      exact (Except.ok.inj hparse).symm
    exact Formula.chars_inj hreread (String.ofList_injective h)
  · rintro rfl
    rfl

/-- The accent alone, and the text that its escape is read as. -/
theorem canonical_ne_escape :
    parse "'\u0301'" = .ok ⟨[.literal (.text "\u0301")]⟩ ∧
      parse "'\\u\x7b301\x7d'" = .ok ⟨[.literal (.text "\\u\x7b301\x7d")]⟩ ∧
      Formula.canonical ⟨[.literal (.text "\u0301")]⟩
        ≠ Formula.canonical ⟨[.literal (.text "\\u\x7b301\x7d")]⟩ := by
  have haccent : parse "'\u0301'" = .ok ⟨[.literal (.text "\u0301")]⟩ := by decide +kernel
  have hescape : parse "'\\u\x7b301\x7d'" = .ok ⟨[.literal (.text "\\u\x7b301\x7d")]⟩ := by
    decide +kernel
  refine ⟨haccent, hescape, ?_⟩
  rw [Ne, canonical_eq_iff haccent hescape]
  decide

end FormulaSyntax
