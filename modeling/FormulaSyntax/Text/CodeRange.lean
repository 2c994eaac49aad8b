/-!
# Ranges of code points

A property of characters is stored as a list of closed ranges in ascending order. Because of the
order a search can stop at the first range that lies above the code point, so the common
characters, which have small code points, are settled after a few comparisons.
-/

set_option autoImplicit false

namespace FormulaSyntax

namespace Text

/-- Whether a number lies in one of the ranges, which stand in ascending order. -/
def inRanges : List (Nat × Nat) → Nat → Bool
  | [], _ => false
  | (first, last) :: rest, n =>
    if n < first then false else if n ≤ last then true else inRanges rest n

end Text

end FormulaSyntax
