/-!
# Decimals: a whole number scaled by a power of ten

A `Decimal` is what a run of digits with a point or an exponent denotes, before any rounding:
`digits * 10 ^ exponent`. The same number has many such forms; nothing here depends on which one
is at hand, apart from the two texts below, which write the digits they are given.

* `plain` is positional at every magnitude: no exponent ever, no point for a whole number.
* `scientific` has one digit in front of the point and then the exponent.
-/

set_option autoImplicit false

namespace FormulaSyntax

/-- The number `digits * 10 ^ exponent`. -/
structure Decimal where
  digits : Nat
  exponent : Int
deriving DecidableEq, Inhabited

namespace Decimal

def padded (width n : Nat) : String :=
  String.ofList (List.replicate (width - n.repr.length) '0') ++ n.repr

/-- Positional text. A negative exponent says how many digits stand behind the point. -/
def plain (d : Decimal) : String :=
  match d.exponent with
  | .ofNat zeros => (d.digits * Nat.pow 10 zeros).repr
  | .negSucc n =>
    let places := n + 1
    let scale := Nat.pow 10 places
    (d.digits / scale).repr ++ "." ++ padded places (d.digits % scale)

/-- The exponent of the first digit: `0` for a number from one up to ten. -/
def leadExponent (d : Decimal) : Int := d.exponent + d.digits.repr.length - 1

/-- One digit, a point if more digits follow, and the exponent of the first digit behind `e`. -/
def scientific (d : Decimal) : String :=
  let fraction := d.digits.repr.toList.drop 1
  String.ofList (d.digits.repr.toList.take 1)
    ++ (if fraction.isEmpty then "" else "." ++ String.ofList fraction)
    ++ "e" ++ toString d.leadExponent

def isWhole (d : Decimal) : Bool := decide (0 ≤ d.exponent)

end Decimal

end FormulaSyntax
