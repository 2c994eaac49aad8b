import FormulaSyntax.Failure
import FormulaSyntax.Numeral
import FormulaSyntax.Scan.Window

/-!
# Number literals

A number literal is a decimal numeral, or a **radix numeral**: a zero, a letter that marks the
radix, and digits of that radix. Both denote a double precision number, the one nearest to what the
digits say.

* In a decimal numeral `_` separates digits: it may stand in front of a digit behind the first
  one, and is no part of the numeral's text.
* A point begins a fraction unless a letter or `_` follows it; then it is the dot of a member
  access. The fraction may be empty, but then no exponent follows it.
* The marks of the radixes are `x` for sixteen, `o` for eight and `b`, which like `x` stands for
  sixteen. Radix digits are not separated.
* A number must not end in `_`, and must be small enough to have a value: a radix numeral stays
  below `2 ^ 64`, a decimal numeral must not round to infinity.

Scanning is straight-line code over the runs of a window. What a numeral says and what it is
worth are functions of the scanned data, `text` and `value`.
-/

set_option autoImplicit false

namespace FormulaSyntax

/-- The characters that a name begins with: letters of the basic alphabet and `_`. -/
def isNameStart (c : Char) : Bool := c.isAlpha || c == '_'

namespace Window

/-- From a given offset up to the current character. -/
def spanFrom (w : Window) (start : Nat) : Span := ⟨start, w.position⟩

/-- Decimal digits, with separators passed over. -/
def decimalDigits (c : Char) (following : Option Char) : Verdict :=
  if c.isDigit then .keep
  else if c = '_' ∧ following.any Char.isDigit then .skip
  else .stop

def radixDigits (base : Nat) (c : Char) (_following : Option Char) : Verdict :=
  if isDigitOf base c then .keep else .stop

/-- Whether the current character is a point that begins a fraction. -/
def atFraction (w : Window) : Bool :=
  w.current? == some '.' && !w.following?.any isNameStart

def sign? (w : Window) : Option Char × Window :=
  match w.current? with
  | some c => if c = '+' ∨ c = '-' then (some c, w.advance) else (none, w)
  | none => (none, w)

/-- The sign and the digits of an exponent, behind its mark. -/
def exponent (mark : Char) (start : Nat) (w : Window) : Except LexError Exponent × Window :=
  let (sign, signed) := w.sign?
  let (digits, rest) := signed.run decimalDigits
  if digits.isEmpty then (.error ⟨.emptyExponent, rest.spanFrom start⟩, rest)
  else (.ok ⟨mark, sign, digits⟩, rest)

/-- An exponent, if its mark is the current character. -/
def exponent? (start : Nat) (w : Window) : Except LexError (Option Exponent) × Window :=
  match w.current? with
  | some c =>
    if isExponentMark c then
      let (result, rest) := exponent c start w.advance
      (result.map some, rest)
    else (.ok none, w)
  | none => (.ok none, w)

/-- A decimal numeral that begins at the current character, in a literal begun at `start`. -/
def decimalNumeral (start : Nat) (w : Window) : Except LexError DecimalNumeral × Window :=
  let (whole, rest) := w.run decimalDigits
  if rest.atFraction then
    let (places, rest) := rest.advance.run decimalDigits
    if places.isEmpty then (.ok ⟨whole, some places, none⟩, rest)
    else
      let (result, rest) := exponent? start rest
      (result.map fun e => ⟨whole, some places, e⟩, rest)
  else
    let (result, rest) := exponent? start rest
    (result.map fun e => ⟨whole, none, e⟩, rest)

def decimalNumber (start : Nat) (w : Window) : Except LexError Binary64 × Window :=
  match decimalNumeral start w with
  | (.error e, rest) => (.error e, rest)
  | (.ok n, rest) =>
    if n.value.isFinite then (.ok n.value, rest)
    else (.error ⟨.invalidNumber n.text, rest.spanFrom start⟩, rest)

def radixNumber (r : Radix) (start : Nat) (w : Window) : Except LexError Binary64 × Window :=
  let (digits, rest) := w.run (radixDigits r.base)
  if digits.isEmpty then (.error ⟨.emptyRadixDigits, rest.spanFrom start⟩, rest)
  else
    match word? r.base digits with
    | some word => (.ok (Binary64.ofWord word), rest)
    | none => (.error ⟨.invalidNumber (r.mark ++ String.ofList digits), rest.spanFrom start⟩, rest)

/-- The radix whose mark stands behind a leading zero. -/
def radix? (w : Window) : Option Radix :=
  if w.current? = some '0' then w.following?.bind Radix.ofMark? else none

/-- A number without regard to what follows it. -/
def unguardedNumber (w : Window) : Except LexError Binary64 × Window :=
  match w.radix? with
  | some r => radixNumber r w.position w.advance.advance
  | none => decimalNumber w.position w

/-- The number literal at the current character. No separator may be left behind it. -/
def number (w : Window) : Except LexError Binary64 × Window :=
  match unguardedNumber w with
  | (.error e, rest) => (.error e, rest)
  | (.ok x, rest) =>
    if rest.current? = some '_' then
      (.error ⟨.trailingUnderscore, ⟨w.position, rest.position + 1⟩⟩, rest)
    else (.ok x, rest)

/-! ## Scanning a number makes the text shorter -/

theorem length_text_sign?_le (w : Window) : w.sign?.2.text.length ≤ w.text.length := by
  unfold sign?
  split
  · next c h =>
    split
    · exact Nat.le_of_lt (length_text_advance_lt h)
    · exact Nat.le_refl _
  · exact Nat.le_refl _

theorem length_text_exponent_le (mark : Char) (start : Nat) (w : Window) :
    (exponent mark start w).2.text.length ≤ w.text.length := by
  have hrun := Nat.le_trans (length_text_run_le decimalDigits w.sign?.2) (length_text_sign?_le w)
  simp only [exponent]
  split <;> exact hrun

theorem length_text_exponent?_le (start : Nat) (w : Window) :
    (exponent? start w).2.text.length ≤ w.text.length := by
  unfold exponent?
  split
  · next c h =>
    split
    · exact Nat.le_trans (length_text_exponent_le ..) (Nat.le_of_lt (length_text_advance_lt h))
    · exact Nat.le_refl _
  · exact Nat.le_refl _

theorem length_text_advance_le (w : Window) : w.advance.text.length ≤ w.text.length := by
  rw [text_advance, List.length_tail]
  exact Nat.sub_le _ _

theorem length_text_decimalNumeral_le (start : Nat) (w : Window) :
    (decimalNumeral start w).2.text.length ≤ (w.run decimalDigits).2.text.length := by
  have hrest : ∀ v : Window, (v.advance.run decimalDigits).2.text.length ≤ v.text.length :=
    fun v => Nat.le_trans (length_text_run_le ..) (length_text_advance_le v)
  simp only [decimalNumeral]
  split
  · split
    · exact hrest _
    · exact Nat.le_trans (length_text_exponent?_le ..) (hrest _)
  · exact length_text_exponent?_le ..

theorem length_text_number_lt {w : Window} {c : Char} (hc : w.current? = some c)
    (hd : c.isDigit = true) : w.number.2.text.length < w.text.length := by
  have hunguarded : (unguardedNumber w).2.text.length < w.text.length := by
    unfold unguardedNumber
    split
    · next r _ =>
      have hle : (radixNumber r w.position w.advance.advance).2.text.length
          ≤ w.advance.advance.text.length := by
        simp only [radixNumber]
        split
        · exact length_text_run_le ..
        · split <;> exact length_text_run_le ..
      exact Nat.lt_of_le_of_lt (Nat.le_trans hle (length_text_advance_le _))
        (length_text_advance_lt hc)
    · have hlt : (decimalNumeral w.position w).2.text.length < w.text.length := by
        refine Nat.lt_of_le_of_lt (length_text_decimalNumeral_le ..) (length_text_run_lt hc ?_)
        simp [decimalDigits, hd]
      unfold decimalNumber
      split
      · next h => simpa [h] using hlt
      · next h => split <;> simpa [h] using hlt
  unfold number
  split
  · next h => simpa [h] using hunguarded
  · next h => split <;> simpa [h] using hunguarded

end Window

end FormulaSyntax
