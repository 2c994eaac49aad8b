import FormulaSyntax.Binary64.Rounding

/-!
# Numerals: the texts of numbers

A **decimal numeral** is a run of digits with an optional fraction and an optional exponent. A
**radix numeral** is a run of digits in a base that a mark in front of it stands for. Separators are
no part of a numeral.

A numeral gets its value by one of two conversions of texts.

* `word?` reads digits as a word of 64 bits. There is none if 64 bits do not hold the number.
* `Binary64.parse?` reads the text of a decimal numeral as the nearest double precision number.

**A decimal numeral without a point or an exponent is read as a word, and the word is converted**
(`Binary64.ofWord`); if it is too wide for a word its text is parsed. Every other decimal numeral is
parsed (`DecimalNumeral.parsed?`). A radix numeral has to be a word.

The parser reads the digits of an exponent from the left up to the one with which it reaches
`65536`, and passes over those behind it. This tells only in numerals with tens of thousands of
digits in front of the exponent: a shorter one with so large an exponent is zero, rounds to zero or
is too large, however the exponent goes on. A one, `65536` zeros and the exponent `-655360` are
parsed as `1`.

Digits are read in blocks, which is the same as one by one (`digitsValue_eq_foldl`) and keeps long
numerals fast. An exponent below `655360` is read in full (`magnitude_eq_digitsValue`).
-/

set_option autoImplicit false

namespace FormulaSyntax

/-! ## Digits -/

/-- The value of a digit, the letters up to `f` of either case counting from ten. -/
def digitValue? (c : Char) : Option Nat :=
  if '0' ≤ c ∧ c ≤ '9' then some (c.toNat - '0'.toNat)
  else if 'a' ≤ c ∧ c ≤ 'f' then some (c.toNat - 'a'.toNat + 10)
  else if 'A' ≤ c ∧ c ≤ 'F' then some (c.toNat - 'A'.toNat + 10)
  else none

def isDigitOf (base : Nat) (c : Char) : Bool :=
  match digitValue? c with
  | some n => decide (n < base)
  | none => false

/-- A number with one more digit behind it. -/
def withDigit (base n : Nat) (c : Char) : Nat := n * base + (digitValue? c).getD 0

/-- A block of digits takes further ones while its scale is below this. -/
def blockBound : Nat := Nat.pow 2 512

/-- The number that digits write behind `value * scale + block`. The digits go into the block, and
    a full block into the value, so that the value, which may be large, is touched once a block. -/
def digitsValueFrom (base value block scale : Nat) : List Char → Nat
  | [] => value * scale + block
  | c :: rest =>
    if scale < blockBound then
      digitsValueFrom base value (withDigit base block c) (scale * base) rest
    else
      digitsValueFrom base (value * scale + block) (withDigit base 0 c) base rest

def digitsValue (base : Nat) (digits : List Char) : Nat := digitsValueFrom base 0 0 1 digits

theorem digitsValueFrom_eq_foldl (base : Nat) (digits : List Char) (value block scale : Nat) :
    digitsValueFrom base value block scale digits
      = digits.foldl (withDigit base) (value * scale + block) := by
  induction digits generalizing value block scale with
  | nil => rfl
  | cons c rest ih =>
    unfold digitsValueFrom
    split
    · rw [ih, List.foldl_cons]
      congr 1
      simp only [withDigit, Nat.add_mul, Nat.mul_assoc, Nat.add_assoc]
    · rw [ih, List.foldl_cons]
      congr 1
      simp only [withDigit, Nat.zero_mul, Nat.zero_add]

/-- Reading in blocks is reading digit by digit. -/
theorem digitsValue_eq_foldl (base : Nat) (digits : List Char) :
    digitsValue base digits = digits.foldl (withDigit base) 0 :=
  digitsValueFrom_eq_foldl base digits 0 0 1

theorem le_foldl_withDigit {base : Nat} (hbase : 0 < base) (digits : List Char) (n : Nat) :
    n ≤ digits.foldl (withDigit base) n := by
  induction digits generalizing n with
  | nil => exact Nat.le_refl n
  | cons c rest ih =>
    refine Nat.le_trans ?_ (ih (withDigit base n c))
    exact Nat.le_trans (Nat.le_mul_of_pos_right n hbase) (Nat.le_add_right _ _)

/-! ## Words -/

/-- Reads digits on to a number, as long as 64 bits hold it. -/
def wordFrom? (base value : Nat) : List Char → Option UInt64
  | [] => some (.ofNat value)
  | c :: rest =>
    if isDigitOf base c ∧ withDigit base value c < UInt64.size then
      wordFrom? base (withDigit base value c) rest
    else none

/-- The word that digits write in a base. -/
def word? (base : Nat) (digits : List Char) : Option UInt64 :=
  if digits.isEmpty then none else wordFrom? base 0 digits

/-! ## Decimal numerals -/

def isExponentMark (c : Char) : Bool := c == 'e' || c == 'E'

/-- The exponent of a decimal numeral, with the letter and the sign as written. -/
structure Exponent where
  mark : Char
  sign : Option Char
  digits : List Char
deriving DecidableEq

/-- A decimal numeral. `fraction` is present if there is a point. -/
structure DecimalNumeral where
  whole : List Char
  fraction : Option (List Char)
  exponent : Option Exponent
deriving DecidableEq

namespace Exponent

def chars (e : Exponent) : List Char := e.mark :: (e.sign.toList ++ e.digits)

/-- An exponent of this size takes no further digits. -/
def bound : Nat := 65536

/-- Reads digits on to an exponent of a given size. -/
def magnitudeFrom (size : Nat) : List Char → Nat
  | [] => size
  | c :: rest => if size < bound then magnitudeFrom (withDigit 10 size c) rest else size

def magnitude (e : Exponent) : Nat := magnitudeFrom 0 e.digits

def value (e : Exponent) : Int :=
  if e.sign = some '-' then -(e.magnitude : Int) else e.magnitude

end Exponent

namespace DecimalNumeral

/-- The numeral as written, less the separators. -/
def chars (n : DecimalNumeral) : List Char :=
  n.whole
    ++ (match n.fraction with
        | some places => '.' :: places
        | none => [])
    ++ (match n.exponent with
        | some e => e.chars
        | none => [])

def text (n : DecimalNumeral) : String := String.ofList n.chars

/-- What the numeral denotes: all its digits, scaled by the exponent less the number of places
    behind the point. -/
def toDecimal (n : DecimalNumeral) : Decimal :=
  let places := n.fraction.getD []
  let scale := match n.exponent with
    | some e => e.value
    | none => 0
  ⟨digitsValue 10 (n.whole ++ places), scale - places.length⟩

/-- Takes the sign of an exponent off a text. -/
def splitSign : List Char → Option Char × List Char
  | [] => (none, [])
  | c :: rest => if c = '+' ∨ c = '-' then (some c, rest) else (none, c :: rest)

/-- The exponent that a whole text is. It has to have digits. -/
def exponentOf? : List Char → Option Exponent
  | [] => none
  | mark :: rest =>
    let (sign, digits) := splitSign rest
    if isExponentMark mark ∧ digits ≠ [] ∧ digits.all Char.isDigit then some ⟨mark, sign, digits⟩
    else none

/-- Takes a point, and the digits behind it, off a text. -/
def splitFraction : List Char → Option (List Char) × List Char
  | [] => (none, [])
  | c :: rest =>
    if c = '.' then
      let (places, rest) := rest.span Char.isDigit
      (some places, rest)
    else (none, c :: rest)

/-- The numeral that a whole text is. There has to be a digit in front of the point or behind it. -/
def ofChars? (text : List Char) : Option DecimalNumeral :=
  let (whole, rest) := text.span Char.isDigit
  let (fraction, rest) := splitFraction rest
  if whole.isEmpty ∧ (fraction.getD []).isEmpty then none
  else if rest.isEmpty then some ⟨whole, fraction, none⟩
  else (exponentOf? rest).map fun e => ⟨whole, fraction, some e⟩

end DecimalNumeral

/-- The double precision number nearest to what a text writes, if the text is that of a numeral.
    Texts with a sign in front, and the names of what is not finite, are left out: no literal is
    written like that. -/
def Binary64.parse? (text : List Char) : Option Binary64 :=
  (DecimalNumeral.ofChars? text).map fun n => .ofDecimal false n.toDecimal

namespace DecimalNumeral

/-- Whether there is a point or an exponent. -/
def isFloat (n : DecimalNumeral) : Bool := n.fraction.isSome || n.exponent.isSome

/-- What the text of a numeral is converted to. One that is too wide for a word still has a value as
    a double precision number. -/
def parsed? (n : DecimalNumeral) : Option Binary64 :=
  if n.isFloat then Binary64.parse? n.chars
  else
    match word? 10 n.chars with
    | some word => some (Binary64.ofWord word)
    | none => Binary64.parse? n.chars

/-- The value of a numeral. A text that cannot be converted is as bad as one that is not finite. -/
def value (n : DecimalNumeral) : Binary64 := n.parsed?.getD .nan

end DecimalNumeral

/-! ## Radix numerals -/

/-- A radix that literals may be written in, and how messages write its mark. -/
structure Radix where
  base : Nat
  mark : String
deriving DecidableEq

namespace Radix

/-- The radix that a letter behind a leading zero stands for. -/
def ofMark? (c : Char) : Option Radix :=
  if c = 'x' ∨ c = 'X' then some ⟨16, "0x"⟩
  else if c = 'o' ∨ c = 'O' then some ⟨8, "0o"⟩
  else if c = 'b' ∨ c = 'B' then some ⟨16, "0b"⟩
  else none

end Radix

end FormulaSyntax
