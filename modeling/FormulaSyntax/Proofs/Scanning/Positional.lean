import FormulaSyntax.Binary64.Text
import FormulaSyntax.Proofs.Scanning.NumeralTexts

/-!
# Numbers as they are written out are numerals

`Binary64.plain` writes a number, the scanner reads a numeral; the two are brought together by
`Decimal.numeral`, the numeral that the positional text of a decimal is:

* its characters are that text (`chars_numeral`);
* they are digits, and a point between digits at most (`positional_numeral`);
* it is worth what the decimal is worth (`value_numeral`).

A decimal with zeros at its end is written out with them, and read as a longer whole number. That
is the same number unless it is infinite, whence the condition of the last point.
-/

set_option autoImplicit false

namespace FormulaSyntax

/-! ## Digits -/

theorem foldl_withDigit {digits : List Char} (h : ∀ c ∈ digits, c.isDigit = true) (n : Nat) :
    digits.foldl (withDigit 10) n = Nat.ofDigitChars 10 digits n := by
  induction digits generalizing n with
  | nil => rfl
  | cons c rest ih =>
    rw [List.foldl_cons, withDigit_of_isDigit (h c List.mem_cons_self), Nat.ofDigitChars_cons,
      ih fun d hd => h d (List.mem_cons_of_mem _ hd)]

/-- The digits of a numeral are read as those that a number is written with. -/
theorem digitsValue_eq_ofDigitChars {digits : List Char} (h : ∀ c ∈ digits, c.isDigit = true) :
    digitsValue 10 digits = Nat.ofDigitChars 10 digits 0 := by
  rw [digitsValue_eq_foldl, foldl_withDigit h]

theorem isDigit_of_mem_toDigits {n : Nat} {c : Char} (h : c ∈ Nat.toDigits 10 n) :
    c.isDigit = true :=
  Nat.isDigit_of_mem_toDigits (by decide) (by decide) h

namespace Decimal

/-! ## Places behind the point -/

theorem toList_padded (width n : Nat) :
    (padded width n).toList
      = List.replicate (width - (Nat.toDigits 10 n).length) '0' ++ Nat.toDigits 10 n := by
  simp only [padded, String.toList_append, String.toList_ofList, Nat.toList_repr,
    ← String.length_toList]

theorem isDigit_of_mem_padded {width n : Nat} {c : Char} (h : c ∈ (padded width n).toList) :
    c.isDigit = true := by
  rw [toList_padded] at h
  rcases List.mem_append.mp h with hzero | hdigit
  · rw [List.eq_of_mem_replicate hzero]
    decide
  · exact isDigit_of_mem_toDigits hdigit

/-- A number that fits is padded to just the width. -/
theorem length_padded {width n : Nat} (h : n < 10 ^ width) (hwidth : 0 < width) :
    (padded width n).toList.length = width := by
  have hle := (Nat.length_toDigits_le_iff (by decide : 1 < 10) hwidth).mpr h
  rw [toList_padded, List.length_append, List.length_replicate]
  omega

theorem ofDigitChars_padded (width n : Nat) :
    Nat.ofDigitChars 10 (padded width n).toList 0 = n := by
  rw [toList_padded, Nat.ofDigitChars_append, Nat.ofDigitChars_replicate_zero, Nat.mul_zero,
    Nat.ofDigitChars_ten_toDigits]

/-! ## The numeral that is written out -/

/-- The numeral that the positional text of a decimal is. -/
def numeral (d : Decimal) : DecimalNumeral :=
  match d.exponent with
  | .ofNat zeros => ⟨Nat.toDigits 10 (d.digits * Nat.pow 10 zeros), none, none⟩
  | .negSucc n =>
    ⟨Nat.toDigits 10 (d.digits / Nat.pow 10 (n + 1)),
      some (padded (n + 1) (d.digits % Nat.pow 10 (n + 1))).toList, none⟩

theorem chars_numeral (d : Decimal) : d.numeral.chars = d.plain.toList := by
  obtain ⟨digits, exponent⟩ := d
  cases exponent with
  | ofNat zeros => simp [numeral, plain, DecimalNumeral.chars]
  | negSucc n => simp [numeral, plain, DecimalNumeral.chars]

end Decimal

/-- A numeral in positional form: digits, and a point with further digits behind it at most. -/
structure DecimalNumeral.Positional (n : DecimalNumeral) : Prop where
  whole_ne_nil : n.whole ≠ []
  isDigit_whole : ∀ c ∈ n.whole, c.isDigit = true
  isDigit_places : ∀ c ∈ n.fraction.getD [], c.isDigit = true
  exponent_eq_none : n.exponent = none

namespace DecimalNumeral.Positional

variable {n : DecimalNumeral}

theorem plain (h : n.Positional) : n.Plain :=
  ⟨h.whole_ne_nil, h.isDigit_whole, h.isDigit_places,
    fun e he => by simp [h.exponent_eq_none] at he⟩

/-- A numeral in positional form is made of digits and a point. -/
theorem mem_chars (h : n.Positional) {c : Char} (hc : c ∈ n.chars) :
    c.isDigit = true ∨ c = '.' := by
  simp only [DecimalNumeral.chars, h.exponent_eq_none, List.append_nil] at hc
  rcases List.mem_append.mp hc with hc | hc
  · exact .inl (h.isDigit_whole c hc)
  · cases hf : n.fraction with
    | none => simp [hf] at hc
    | some places =>
      rw [hf] at hc
      rcases List.mem_cons.mp hc with hpoint | hc
      · exact .inr hpoint
      · exact .inl (h.isDigit_places c (by simpa [hf] using hc))

theorem notMem_chars (h : n.Positional) {c : Char} (hdigit : c.isDigit = false)
    (hpoint : c ≠ '.') : c ∉ n.chars := by
  intro hc
  rcases h.mem_chars hc with hd | hp
  · rw [hdigit] at hd
    exact nomatch hd
  · exact hpoint hp

theorem exists_chars_eq_cons (h : n.Positional) :
    ∃ c others, n.chars = c :: others ∧ c.isDigit = true := by
  obtain ⟨c, digits, hwhole⟩ := List.exists_cons_of_ne_nil h.whole_ne_nil
  have hdigit : c.isDigit = true := h.isDigit_whole c (by rw [hwhole]; exact List.mem_cons_self)
  rw [DecimalNumeral.chars, hwhole, List.append_assoc, List.cons_append]
  exact ⟨c, _, rfl, hdigit⟩

end DecimalNumeral.Positional

namespace Decimal

theorem positional_numeral (d : Decimal) : d.numeral.Positional := by
  unfold numeral
  split
  · exact ⟨Nat.toDigits_ne_nil, fun c hc => isDigit_of_mem_toDigits hc, nofun, rfl⟩
  · exact ⟨Nat.toDigits_ne_nil, fun c hc => isDigit_of_mem_toDigits hc,
      fun c hc => isDigit_of_mem_padded hc, rfl⟩

/-- A numeral with places behind the point denotes the very decimal that it is written for. -/
theorem toDecimal_numeral_negSucc (digits n : Nat) :
    (numeral ⟨digits, .negSucc n⟩).toDecimal = ⟨digits, .negSucc n⟩ := by
  have hscale : 0 < Nat.pow 10 (n + 1) := Nat.pow_pos (by decide)
  have hplaces : (padded (n + 1) (digits % Nat.pow 10 (n + 1))).toList.length = n + 1 :=
    length_padded (Nat.mod_lt _ hscale) (Nat.succ_pos n)
  have hvalue : digitsValue 10 (Nat.toDigits 10 (digits / Nat.pow 10 (n + 1))
      ++ (padded (n + 1) (digits % Nat.pow 10 (n + 1))).toList) = digits := by
    rw [digitsValue_eq_ofDigitChars, Nat.ofDigitChars_append, Nat.ofDigitChars_ten_toDigits,
      Nat.ofDigitChars_eq_ofDigitChars_zero, hplaces, ofDigitChars_padded]
    · exact Nat.div_add_mod digits (10 ^ (n + 1))
    · intro c hc
      rcases List.mem_append.mp hc with hwhole | hplace
      · exact isDigit_of_mem_toDigits hwhole
      · exact isDigit_of_mem_padded hplace
  simp only [numeral, DecimalNumeral.toDecimal, Option.getD_some, hvalue, hplaces]
  congr 1

/-- One without a point denotes the decimal with its zeros written out. -/
theorem toDecimal_numeral_ofNat (digits zeros : Nat) :
    (numeral ⟨digits, .ofNat zeros⟩).toDecimal = ⟨digits * Nat.pow 10 zeros, 0⟩ := by
  have hvalue : digitsValue 10 (Nat.toDigits 10 (digits * Nat.pow 10 zeros))
      = digits * Nat.pow 10 zeros := by
    rw [digitsValue_eq_ofDigitChars fun c hc => isDigit_of_mem_toDigits hc,
      Nat.ofDigitChars_ten_toDigits]
  simp only [numeral, DecimalNumeral.toDecimal, Option.getD_none, List.append_nil, hvalue]
  rfl

/-- **The numeral is worth what the decimal is worth.** -/
theorem value_numeral {d : Decimal} (h : (Binary64.ofDecimal false d).isFinite = true) :
    d.numeral.value = Binary64.ofDecimal false d := by
  rw [DecimalNumeral.value_of_plain (positional_numeral d).plain]
  obtain ⟨digits, exponent⟩ := d
  cases exponent with
  | ofNat zeros =>
    rw [toDecimal_numeral_ofNat]
    exact Binary64.ofDecimal_mul_pow h
  | negSucc n => rw [toDecimal_numeral_negSucc]

end Decimal

/-- **A finite number that is not negative is written as a numeral that is worth it.** -/
theorem Binary64.exists_numeral (index : Fin Binary64.finiteCount) :
    ∃ n : DecimalNumeral, n.Positional ∧ n.chars = (Binary64.finite false index).plain.toList ∧
      n.value = .finite false index := by
  have hread : Binary64.ofDecimal false (Binary64.shortest index) = .finite false index := by
    rw [Binary64.ofDecimal_shortest, Binary64.atIndex_of_lt false index.isLt]
  refine ⟨(Binary64.shortest index).numeral, Decimal.positional_numeral _, ?_, ?_⟩
  · rw [Decimal.chars_numeral, Binary64.plain, Binary64.signText]
    simp
  · rw [Decimal.value_numeral (by rw [hread]; rfl), hread]

end FormulaSyntax
