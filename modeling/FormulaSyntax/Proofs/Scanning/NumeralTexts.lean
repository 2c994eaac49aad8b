import FormulaSyntax.Numeral
import FormulaSyntax.Proofs.Binary64.Nearest

/-!
# The texts of numerals, converted

A numeral in plain digits, without separators, is brought to its value by one of three routes: its
digits are read as a word and the word is converted, its digits are parsed because they are too wide
for a word, or its text is parsed because of its point or exponent.

* Digits are read as a word exactly if 64 bits hold the number that they write
  (`isSome_word?_iff`), and then the word is converted as that number is (`ofWord_of_word?`).
* The text of a numeral is parsed as that numeral (`ofChars?_chars`), so there is one numeral for a
  text (`Plain.eq_of_chars`).

**Whichever the route, the value is the decimal that the numeral writes, rounded**
(`parsed?_of_plain`). The conversion of words is not defined by that rounding. It agrees with it
since both give the nearest number, and there is only one.
-/

set_option autoImplicit false

namespace FormulaSyntax

/-! ## Digits -/

section Digits

variable {c : Char}

theorem digitValue?_of_isDigit (h : c.isDigit = true) :
    digitValue? c = some (c.toNat - '0'.toNat) := by
  have hrange : '0' ≤ c ∧ c ≤ '9' := by
    rw [Char.isDigit_iff_toNat] at h
    exact h
  rw [digitValue?, if_pos hrange]

theorem withDigit_of_isDigit (h : c.isDigit = true) (n : Nat) :
    withDigit 10 n c = 10 * n + (c.toNat - '0'.toNat) := by
  rw [withDigit, digitValue?_of_isDigit h, Option.getD_some, Nat.mul_comm]

theorem digitValue_lt_ten (h : c.isDigit = true) : c.toNat - '0'.toNat < 10 := by
  have hrange := Char.isDigit_iff_toNat.mp h
  have hzero : '0'.toNat = 48 := rfl
  have hnine : '9'.toNat = 57 := rfl
  omega

theorem isDigitOf_ten (h : c.isDigit = true) : isDigitOf 10 c = true := by
  rw [isDigitOf, digitValue?_of_isDigit h, decide_eq_true_iff]
  exact digitValue_lt_ten h

end Digits

/-! ## Words -/

section Words

variable {digits : List Char} {base value : Nat}

/-- The induction is on the digits; the number that they are read on from is generalised. -/
theorem wordFrom?_of_digits (hbase : 0 < base) (hdigits : ∀ c ∈ digits, isDigitOf base c = true)
    (hvalue : value < UInt64.size) :
    wordFrom? base value digits =
      if digits.foldl (withDigit base) value < UInt64.size then
        some (.ofNat (digits.foldl (withDigit base) value))
      else none := by
  induction digits generalizing value with
  | nil => rw [wordFrom?, List.foldl_nil, if_pos hvalue]
  | cons c rest ih =>
    have hc := hdigits c List.mem_cons_self
    have hrest := fun d hd => hdigits d (List.mem_cons_of_mem c hd)
    rw [wordFrom?, List.foldl_cons]
    by_cases hnext : withDigit base value c < UInt64.size
    · rw [if_pos ⟨hc, hnext⟩, ih hrest hnext]
    · -- A number that is too large stays so with further digits.
      have hle := le_foldl_withDigit hbase rest (withDigit base value c)
      rw [if_neg fun h => hnext h.2, if_neg fun h => hnext (Nat.lt_of_le_of_lt hle h)]

/-- **Digits are read as a word exactly if 64 bits hold the number that they write.** -/
theorem word?_of_digits (hbase : 0 < base) (hne : digits ≠ [])
    (hdigits : ∀ c ∈ digits, isDigitOf base c = true) :
    word? base digits =
      if digitsValue base digits < UInt64.size then some (.ofNat (digitsValue base digits))
      else none := by
  have hempty : digits.isEmpty = false := by simpa using hne
  rw [word?, hempty, if_neg Bool.false_ne_true, wordFrom?_of_digits hbase hdigits (by decide),
    digitsValue_eq_foldl]

theorem isSome_word?_iff (hbase : 0 < base) (hne : digits ≠ [])
    (hdigits : ∀ c ∈ digits, isDigitOf base c = true) :
    (word? base digits).isSome ↔ digitsValue base digits < 2 ^ 64 := by
  rw [word?_of_digits hbase hne hdigits]
  split
  · next hsize => exact iff_of_true rfl hsize
  · next hsize => exact iff_of_false Bool.false_ne_true hsize

/-- The conversion of a word is that of the number which its digits write. -/
theorem ofWord_of_word? (hbase : 0 < base) (hne : digits ≠ [])
    (hdigits : ∀ c ∈ digits, isDigitOf base c = true) {word : UInt64}
    (h : word? base digits = some word) :
    Binary64.ofWord word = .ofNat (digitsValue base digits) := by
  rw [word?_of_digits hbase hne hdigits] at h
  split at h
  · next hsize =>
    obtain rfl := Option.some.inj h
    rw [Binary64.ofWord_eq_ofNat, UInt64.toNat_ofNat_of_lt' hsize]
  · cases h

end Words

/-! ## Numerals in plain digits -/

/-- An exponent that is read as one: a mark, a sign if there is one, and digits. -/
structure Exponent.Plain (e : Exponent) : Prop where
  mark : isExponentMark e.mark = true
  sign : ∀ c ∈ e.sign, c = '+' ∨ c = '-'
  ne_nil : e.digits ≠ []
  isDigit : ∀ c ∈ e.digits, c.isDigit = true

/-- A numeral that is read as one: digits in all its places, one of them in front. -/
structure DecimalNumeral.Plain (n : DecimalNumeral) : Prop where
  whole_ne_nil : n.whole ≠ []
  isDigit_whole : ∀ c ∈ n.whole, c.isDigit = true
  isDigit_places : ∀ c ∈ n.fraction.getD [], c.isDigit = true
  exponent : ∀ e ∈ n.exponent, e.Plain

/-- A run of digits ends in front of what is no digit. -/
theorem span_digits {digits rest : List Char} (hdigits : ∀ c ∈ digits, c.isDigit = true)
    (hrest : ∀ c ∈ rest.head?, c.isDigit = false) :
    (digits ++ rest).span Char.isDigit = (digits, rest) := by
  have hstop : rest.takeWhile Char.isDigit = [] ∧ rest.dropWhile Char.isDigit = rest := by
    cases rest with
    | nil => exact ⟨rfl, rfl⟩
    | cons c rest =>
      have hc : c.isDigit = false := hrest c rfl
      rw [List.takeWhile_cons, List.dropWhile_cons, hc]
      exact ⟨rfl, rfl⟩
  rw [List.span_eq_takeWhile_dropWhile, List.takeWhile_append_of_pos hdigits,
    List.dropWhile_append_of_pos hdigits, hstop.1, hstop.2, List.append_nil]

theorem not_sign_of_isDigit {c : Char} (h : c.isDigit = true) : ¬ (c = '+' ∨ c = '-') := by
  rintro (rfl | rfl)
  · exact absurd h (by decide)
  · exact absurd h (by decide)

theorem isDigit_of_isExponentMark {c : Char} (h : isExponentMark c = true) :
    c.isDigit = false := by
  simp only [isExponentMark, Bool.or_eq_true, beq_iff_eq] at h
  rcases h with rfl | rfl
  · decide
  · decide

namespace DecimalNumeral

variable {n : DecimalNumeral}

theorem chars_eq (n : DecimalNumeral) :
    n.chars = n.whole ++ (n.fraction.elim [] ('.' :: ·) ++ n.exponent.elim [] Exponent.chars) := by
  obtain ⟨whole, fraction, exponent⟩ := n
  cases fraction <;> cases exponent <;> simp [chars]

theorem splitSign_append {sign : Option Char} {digits : List Char}
    (hsign : ∀ c ∈ sign, c = '+' ∨ c = '-') (hdigits : ∀ c ∈ digits, c.isDigit = true) :
    splitSign (sign.toList ++ digits) = (sign, digits) := by
  cases sign with
  | some c => exact if_pos (hsign c rfl)
  | none =>
    cases digits with
    | nil => rfl
    | cons c rest => exact if_neg (not_sign_of_isDigit (hdigits c List.mem_cons_self))

theorem exponentOf?_chars {e : Exponent} (h : e.Plain) : exponentOf? e.chars = some e := by
  have hall : e.digits.all Char.isDigit = true := List.all_eq_true.mpr h.isDigit
  rw [Exponent.chars, exponentOf?, splitSign_append h.sign h.isDigit]
  exact if_pos ⟨h.mark, h.ne_nil, hall⟩

/-- What is behind the digits of a numeral does not go on with them. -/
theorem isDigit_head_exponent (h : n.Plain) :
    ∀ c ∈ (n.exponent.elim [] Exponent.chars).head?, c.isDigit = false ∧ c ≠ '.' := by
  intro c hc
  cases he : n.exponent with
  | none => simp [he] at hc
  | some e =>
    have hmark := (h.exponent e he).mark
    obtain rfl : e.mark = c := by simpa [he, Exponent.chars] using hc
    refine ⟨isDigit_of_isExponentMark hmark, ?_⟩
    intro hpoint
    rw [hpoint] at hmark
    exact absurd hmark (by decide)

/-- A point is taken with the places behind it. Without one, what is left begins with no point,
    since a mark is none. -/
theorem splitFraction_append (h : n.Plain) :
    splitFraction (n.fraction.elim [] ('.' :: ·) ++ n.exponent.elim [] Exponent.chars)
      = (n.fraction, n.exponent.elim [] Exponent.chars) := by
  have hbehind := isDigit_head_exponent h
  cases hf : n.fraction with
  | some places =>
    have hplaces : ∀ c ∈ places, c.isDigit = true := by simpa [hf] using h.isDigit_places
    rw [Option.elim_some, List.cons_append, splitFraction, if_pos rfl,
      span_digits hplaces fun c hc => (hbehind c hc).1]
  | none =>
    rw [Option.elim_none, List.nil_append]
    generalize n.exponent.elim [] Exponent.chars = rest at hbehind ⊢
    cases rest with
    | nil => rfl
    | cons c rest => exact if_neg (hbehind c rfl).2

/-- **The text of a numeral is read as that numeral.** -/
theorem ofChars?_chars (h : n.Plain) : ofChars? n.chars = some n := by
  have hhead : ∀ c ∈ (n.fraction.elim [] ('.' :: ·)
      ++ n.exponent.elim [] Exponent.chars).head?, c.isDigit = false := by
    intro c hc
    cases hf : n.fraction with
    | some places =>
      obtain rfl : '.' = c := by simpa [hf] using hc
      decide
    | none => exact (isDigit_head_exponent h c (by simpa [hf] using hc)).1
  have hwhole : ¬ (n.whole.isEmpty = true ∧ (n.fraction.getD []).isEmpty = true) := by
    simp [h.whole_ne_nil]
  rw [chars_eq, ofChars?, span_digits h.isDigit_whole hhead]
  simp only [splitFraction_append h, if_neg hwhole]
  obtain ⟨whole, fraction, exponent⟩ := n
  cases exponent with
  | none => rfl
  | some e =>
    simp only [Option.elim_some, exponentOf?_chars (h.exponent e rfl), Option.map_some]
    rfl

theorem parse?_chars (h : n.Plain) :
    Binary64.parse? n.chars = some (.ofDecimal false n.toDecimal) := by
  rw [Binary64.parse?, ofChars?_chars h, Option.map_some]

/-! ## Main result -/

/-- Without a point and an exponent a numeral is its digits. -/
theorem exists_digits_of_isFloat (h : n.isFloat = false) : ∃ digits, n = ⟨digits, none, none⟩ := by
  obtain ⟨whole, fraction, exponent⟩ := n
  cases fraction with
  | some places => cases h
  | none =>
    cases exponent with
    | some e => cases h
    | none => exact ⟨whole, rfl⟩

theorem chars_digits (digits : List Char) : chars ⟨digits, none, none⟩ = digits := by
  simp only [chars, List.append_nil]

theorem toDecimal_digits (digits : List Char) :
    toDecimal ⟨digits, none, none⟩ = ⟨digitsValue 10 digits, 0⟩ := by
  simp [toDecimal]

theorem Plain.isDigitOf_ten {digits : List Char} (h : Plain ⟨digits, none, none⟩) :
    ∀ c ∈ digits, isDigitOf 10 c = true :=
  fun c hc => FormulaSyntax.isDigitOf_ten (h.isDigit_whole c hc)

/-- **A numeral is worth the decimal that it writes, rounded**, by whichever route it goes. -/
theorem parsed?_of_plain (h : n.Plain) : n.parsed? = some (.ofDecimal false n.toDecimal) := by
  cases hfloat : n.isFloat with
  | true => rw [parsed?, if_pos hfloat, parse?_chars h]
  | false =>
    obtain ⟨digits, rfl⟩ := exists_digits_of_isFloat hfloat
    rw [parsed?, hfloat, if_neg Bool.false_ne_true, parse?_chars h, chars_digits, toDecimal_digits]
    cases hword : word? 10 digits with
    | none => rfl
    | some word =>
      exact congrArg some (ofWord_of_word? (by decide) h.whole_ne_nil h.isDigitOf_ten hword)

theorem value_of_plain (h : n.Plain) : n.value = .ofDecimal false n.toDecimal := by
  rw [value, parsed?_of_plain h, Option.getD_some]

end DecimalNumeral

end FormulaSyntax
