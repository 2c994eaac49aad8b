import FormulaSyntax.Binary64.Rounding

/-!
# The shortest decimal that reads back

A finite number is written with the fewest digits that still denote it: the digits from which
`ofDecimal` gives the same number again. For one digit count the candidates are the two points
of the decimal grid next to the number, the one below and the one above. The first grid with a
candidate that reads back wins. If both do, the nearer one is taken, and of two equally near
ones the upper.

The test is the reading itself, so **a text chosen here reads back by construction**. Seventeen
digits are enough for every finite number; behind them stands the exact value of the number,
which needs no search.
-/

set_option autoImplicit false

namespace FormulaSyntax

namespace Binary64

/-- Ten to an integer power, as a fraction. -/
def powerOfTen (exponent : Int) : Nat × Nat :=
  match exponent with
  | .ofNat n => (Nat.pow 10 n, 1)
  | .negSucc n => (1, Nat.pow 10 (n + 1))

/-- The exact value of the number at an index: a unit is `5 ^ 1074 / 10 ^ 1074`. -/
def exactDecimal (index : Nat) : Decimal := ⟨units index * Nat.pow 5 1074, -1074⟩

/-- Whether a decimal is below the number at an index, or equal to it. -/
def atMost (d : Decimal) (index : Nat) : Bool :=
  let (num, den) := powerOfTen d.exponent
  decide (d.digits * num * unitsPerOne ≤ units index * den)

/-- The least power of ten above the number at an index. The logarithm of the unit count gives
    an exponent that is never too large and falls short by two at most. -/
def magnitude (index : Nat) : Int :=
  let estimate : Int := (((units index).log2 : Int) - 1074) * 30103 / 100000
  if atMost ⟨1, estimate + 1⟩ index then estimate + 2
  else if atMost ⟨1, estimate⟩ index then estimate + 1
  else estimate

/-- The grid point below the number at an index, on the grid of multiples of a power of ten. -/
def gridBelow (index : Nat) (exponent : Int) : Nat :=
  let (num, den) := powerOfTen exponent
  units index * den / (num * unitsPerOne)

/-- Whether the upper neighbour on a grid is at least as near as the lower one: the number is not
    below the middle between them. -/
def nearerAbove (index : Nat) (below : Nat) (exponent : Int) : Bool :=
  let (num, den) := powerOfTen exponent
  decide ((2 * below + 1) * num * unitsPerOne ≤ 2 * units index * den)

def readsBack (index : Nat) (d : Decimal) : Bool :=
  ofDecimal false d == atIndex false index

/-- The one of two neighbours on a grid that is taken: one that reads back, and of two that do the
    nearer one. -/
def pick (lower upper : Decimal) (above : Bool) : Bool → Bool → Option Decimal
  | true, true => some (if above then upper else lower)
  | true, false => some lower
  | false, true => some upper
  | false, false => none

/-- The grid point of a given spacing that denotes the number at an index, if there is one. -/
def onGrid? (index : Nat) (exponent : Int) : Option Decimal :=
  let below := gridBelow index exponent
  let lower : Decimal := ⟨below, exponent⟩
  let upper : Decimal := ⟨below + 1, exponent⟩
  pick lower upper (nearerAbove index below exponent) (readsBack index lower)
    (readsBack index upper)

def mostDigits : Nat := 17

/-- The shortest decimal that denotes the number at an index; zero is a single digit. Starting
    with no digit at all below the magnitude finds the powers of ten. -/
def shortest (index : Nat) : Decimal :=
  if index = 0 then ⟨0, 0⟩
  else
    let top := magnitude index
    let tried := (List.range (mostDigits + 1)).findSome? fun count : Nat => onGrid? index (top - count)
    tried.getD (exactDecimal index)

end Binary64

end FormulaSyntax
