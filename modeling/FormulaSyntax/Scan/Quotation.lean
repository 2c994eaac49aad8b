import FormulaSyntax.Failure
import FormulaSyntax.Scan.Numeral
import FormulaSyntax.Text.Escape

/-!
# String literals

A string literal stands between two quotes of the same sort. Inside it a backslash takes the
character behind it along, whatever that is, so a quote behind a backslash does not end the
literal; what the two mean together is `Escape.meaning`. A line feed that is not behind a
backslash, and the end of the source, leave the literal unterminated.
-/

set_option autoImplicit false

namespace FormulaSyntax

namespace Window

/-- Reads the inside of a string literal and its closing quote. `content` is what was read so far,
    last character first. Without a closing quote the window stays in front of what is in its
    place. -/
def quotationBody (quote : Char) (w : Window) (content : List Char) :
    Option (List Char) × Window :=
  match _h : w.current? with
  | none => (none, w)
  | some c =>
    if c = quote then (some content.reverse, w.advance)
    else if c = '\\' then
      match _h : w.advance.current? with
      | none => (none, w.advance)
      | some letter =>
        quotationBody quote w.advance.advance ((Escape.meaning letter).reverse ++ content)
    else if c = '\n' then (none, w)
    else quotationBody quote w.advance (c :: content)
termination_by w.text.length
decreasing_by
  · exact Nat.lt_trans (length_text_advance_lt ‹_›) (length_text_advance_lt ‹_›)
  · exact length_text_advance_lt ‹_›

/-- The string literal whose opening quote is the current character. -/
def quotation (quote : Char) (w : Window) : Except LexError String × Window :=
  match quotationBody quote w.advance [] with
  | (some content, rest) => (.ok (String.ofList content), rest)
  | (none, rest) => (.error ⟨.unterminatedString, rest.spanFrom w.position⟩, rest)

theorem length_text_quotationBody_le (quote : Char) (w : Window) (content : List Char) :
    (quotationBody quote w content).2.text.length ≤ w.text.length := by
  fun_induction quotationBody quote w content with
  | case1 => exact Nat.le_refl _
  | case2 => exact length_text_advance_le _
  | case3 => exact length_text_advance_le _
  | case4 _ _ _ _ _ _ ih =>
    exact Nat.le_trans ih (Nat.le_trans (length_text_advance_le _) (length_text_advance_le _))
  | case5 => exact Nat.le_refl _
  | case6 _ _ _ _ _ _ _ ih => exact Nat.le_trans ih (length_text_advance_le _)

theorem length_text_quotation_lt {w : Window} {quote : Char} (h : w.current? = some quote) :
    (quotation quote w).2.text.length < w.text.length := by
  have hlt : (quotationBody quote w.advance []).2.text.length < w.text.length :=
    Nat.lt_of_le_of_lt (length_text_quotationBody_le ..) (length_text_advance_lt h)
  unfold quotation
  split
  · next h => simpa [h] using hlt
  · next h => simpa [h] using hlt

end Window

end FormulaSyntax
