import FormulaSyntax.Binary64.Basic
import FormulaSyntax.Decimal

/-!
# Rounding to the nearest double precision number

A positive rational, counted in units of `2 ^ -1074`, is rounded to the nearest number of the
row of finite numbers; of two equally near ones the one with the even index is taken. Past the
last finite number by half a step or more the result is infinite, and below half a unit it is
zero.

`nearestIndex` is exact on all rationals. `ofDecimal` is the same for a decimal, with two
shortcuts for exponents so large or so small that the answer does not depend on the digits: a
nonzero decimal beyond `10 ^ 400` is infinite, and one below `10 ^ -400` is zero. They keep the
powers of ten that are worked out in proportion to the digits.
-/

set_option autoImplicit false

namespace FormulaSyntax

namespace Binary64

/-- The quotient rounded to the nearest whole number, a half going to the even neighbour. -/
def roundHalfEven (num den : Nat) : Nat :=
  let quotient := num / den
  let twice := 2 * (num % den)
  if twice < den then quotient
  else if den < twice then quotient + 1
  else quotient + quotient % 2

/-- The index of the number nearest to `num / den` units. In the band where the spacing is
    `2 ^ shift` units, the whole part of the quotient has `53 + shift` binary digits, and each
    band passed adds `2 ^ 52` to the index. A rounding up that leaves the band is the first
    number of the next one, whose index is again the sum. -/
def nearestIndex (num den : Nat) : Nat :=
  let shift := Nat.log2 (num / den) - 52
  shift * bandSize + roundHalfEven num (den * Nat.pow 2 shift)

/-- The number of units in one, `2 ^ 1074`. -/
def unitsPerOne : Nat := Nat.pow 2 1074

/-- Every nonzero decimal with an exponent above this is infinite, and every decimal that stays
    below ten to the negative of this is zero. -/
def largestExponent : Int := 400

/-- The double precision number nearest to a decimal, of the sign asked for. -/
def ofDecimal (negative : Bool) (d : Decimal) : Binary64 :=
  if d.digits = 0 then zero negative
  else if largestExponent < d.exponent then .infinite negative
  else if d.exponent + (Nat.log2 d.digits + 1 : Nat) < -largestExponent then zero negative
  else
    match d.exponent with
    | .ofNat zeros =>
      atIndex negative (nearestIndex (d.digits * Nat.pow 10 zeros * unitsPerOne) 1)
    | .negSucc n =>
      atIndex negative (nearestIndex (d.digits * unitsPerOne) (Nat.pow 10 (n + 1)))

def ofNat (n : Nat) : Binary64 := ofDecimal false ⟨n, 0⟩

/-- The double precision number nearest to a word, as words are converted. Its first 53 binary
    digits are kept, shifted to the left if there are less of them, and rounded for those behind
    them. Each band passed adds `2 ^ 52` to the index; one is at the beginning of band `1023`. -/
def ofWord (word : UInt64) : Binary64 :=
  let n := word.toNat
  let lead := Nat.log2 n
  let significand :=
    if lead ≤ 52 then n * Nat.pow 2 (52 - lead) else roundHalfEven n (Nat.pow 2 (lead - 52))
  if n = 0 then zero false else atIndex false ((lead + 1022) * bandSize + significand)

def ofInt (n : Int) : Binary64 := ofDecimal (decide (n < 0)) ⟨n.natAbs, 0⟩

end Binary64

end FormulaSyntax
