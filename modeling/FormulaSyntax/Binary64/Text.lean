import FormulaSyntax.Binary64.Shortest

/-!
# Double precision numbers in text

Two texts are in use. `plain` is the one that rendered formulas and tokens show: the shortest
digits that read back, written positionally at every magnitude. `pointed` appears in messages
about token payloads and shows that a number is a fractional one: a whole number gets `.0`, and
very large and very small numbers an exponent.
-/

set_option autoImplicit false

namespace FormulaSyntax

namespace Binary64

/-- A minus sign for a negative number, negative zero included. -/
def signText (negative : Bool) : String := if negative then "-" else ""

def plain : Binary64 → String
  | .finite negative index => signText negative ++ (shortest index).plain
  | .infinite negative => signText negative ++ "inf"
  | .nan => "NaN"

instance : ToString Binary64 := ⟨plain⟩

/-- Numbers from this power of ten on are written with an exponent by `pointed`. -/
def firstLargeExponent : Int := 16

/-- Nonzero numbers whose first digit stands at this power of ten or below are written with an
    exponent by `pointed`. -/
def lastSmallExponent : Int := -5

/-- The text of a magnitude that cannot be taken for that of a whole number. -/
def pointedMagnitude (d : Decimal) : String :=
  if d.digits ≠ 0 ∧ (firstLargeExponent ≤ d.leadExponent ∨ d.leadExponent ≤ lastSmallExponent) then
    d.scientific
  else if d.isWhole then d.plain ++ ".0"
  else d.plain

def pointed : Binary64 → String
  | .finite negative index => signText negative ++ pointedMagnitude (shortest index)
  | .infinite negative => signText negative ++ "inf"
  | .nan => "NaN"

end Binary64

end FormulaSyntax
