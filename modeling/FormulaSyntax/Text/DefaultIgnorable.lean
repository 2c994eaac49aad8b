import FormulaSyntax.Text.CodeRange

/-!
# Characters that show nothing

The Unicode property Default_Ignorable_Code_Point: format controls, variation selectors, joiners
and the fillers of the Hangul script. They steer how the characters around them are drawn, or hold
a place open, and a text does not show whether one of them is in it. The ranges are those of
Unicode 17.0, and take in code points set aside for further characters of the kind.
-/

set_option autoImplicit false

namespace FormulaSyntax

namespace Text

def defaultIgnorableRanges : List (Nat × Nat) := [
  (0xAD, 0xAD), (0x34F, 0x34F), (0x61C, 0x61C), (0x115F, 0x1160), (0x17B4, 0x17B5),
  (0x180B, 0x180F), (0x200B, 0x200F), (0x202A, 0x202E), (0x2060, 0x206F), (0x3164, 0x3164),
  (0xFE00, 0xFE0F), (0xFEFF, 0xFEFF), (0xFFA0, 0xFFA0), (0xFFF0, 0xFFF8), (0x1BCA0, 0x1BCA3),
  (0x1D173, 0x1D17A), (0xE0000, 0xE0FFF)]

/-- Whether a character shows nothing. -/
def isDefaultIgnorable (c : Char) : Bool := inRanges defaultIgnorableRanges c.toNat

end Text

end FormulaSyntax
