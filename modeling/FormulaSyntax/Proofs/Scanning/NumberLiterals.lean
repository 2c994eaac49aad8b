import FormulaSyntax.Proofs.Scanning.NumberGrammar
import FormulaSyntax.Proofs.Scanning.Pieces

/-!
# Number literals are scanned by their grammar

**A text that begins with a digit begins with a number literal, and a literal that it begins with is
what is scanned** (`nextToken_numberLiteral`). That no text begins with two literals of different
results needs no argument about words: the scan of a text has one result, and every literal that the
text begins with has it.

The proofs follow the scanners. What is passed over and what is kept is known from the words; that
the scan stops behind a word is what makes it the longest one.
-/

set_option autoImplicit false

namespace FormulaSyntax

open Window (beginsFraction)

namespace Window

variable {w : Window} {word rest : List Char}

/-! ## Runs of digits -/

theorem decimalDigits_of_endsDigits {c : Char} (h : EndsDigits (c :: rest)) :
    decimalDigits c rest.head? = .stop := by
  have hdigit : c.isDigit = false := by
    rw [Bool.eq_false_iff]
    intro hc
    exact absurd (h [c] (.digit hc .nil) ⟨rest, rfl⟩) (by simp)
  have hseparated : ¬ (c = '_' ∧ rest.head?.any Char.isDigit = true) := by
    rintro ⟨rfl, hany⟩
    cases rest with
    | nil => simp at hany
    | cons d rest => exact absurd (h ['_', d] (.separated hany .nil) ⟨rest, rfl⟩) (by simp)
  rw [decimalDigits, if_neg (by simp [hdigit]), if_neg hseparated]

theorem atFraction_eq_beginsFraction (w : Window) : w.atFraction = beginsFraction w.text :=
  atFraction_append closes_nil (List.append_nil _).symm

theorem beginsFraction_of_numeric (h : Numeric word) :
    beginsFraction ('.' :: (word ++ rest)) = true := by
  obtain ⟨c, more, rfl, hc, -⟩ := h
  simp [beginsFraction, isNameStart_of_isDigit hc]

/-- Behind a point of a fraction there is no separator. -/
theorem decimalDigits_of_point (hpoint : beginsFraction ('.' :: rest) = true)
    (hdigit : ∀ c ∈ rest.head?, c.isDigit = false) :
    ∀ c ∈ rest.head?, ∀ d, decimalDigits c d = .stop := by
  intro c hc d
  have hne : c ≠ '_' := by
    rintro rfl
    rw [beginsFraction, List.tail_cons, hc] at hpoint
    simp [isNameStart] at hpoint
  simp [decimalDigits, hdigit c hc, hne]

/-- The induction is on the digits; what was kept before them is generalised. -/
theorem gather_of_grouped (hword : Grouped word) (hrest : EndsDigits rest)
    (h : w.text = word ++ rest) (kept : List Char) :
    gather decimalDigits w kept
      = (kept.reverse ++ unseparated word, w.pass word.length) := by
  induction hword generalizing w kept with
  | nil =>
    cases rest with
    | nil =>
      rw [gather_of_stop kept (by simp [h]), unseparated, List.filter_nil, List.append_nil]
      rfl
    | cons c rest =>
      rw [gather_of_text h, decimalDigits_of_endsDigits hrest]
      simp [unseparated]
  | @digit c word hc _ ih =>
    rw [gather_of_text h, decimalDigits, if_pos hc]
    simp only [ih (text_advance_of_text h)]
    simp [unseparated, ne_separator_of_isDigit hc, pass_succ]
  | @separated c word hc _ ih =>
    have hadvance := text_advance_of_text h
    rw [gather_of_text h, decimalDigits, if_neg (by decide), if_pos ⟨rfl, by simpa using hc⟩]
    simp only
    rw [gather_of_text hadvance, decimalDigits, if_pos hc]
    simp only [ih (text_advance_of_text hadvance)]
    simp [unseparated, ne_separator_of_isDigit hc, pass_succ]

theorem run_of_grouped (hword : Grouped word) (hrest : EndsDigits rest) (h : w.text = word ++ rest) :
    w.run decimalDigits = (unseparated word, w.pass word.length) :=
  gather_of_grouped hword hrest h []

theorem run_of_numeric (h : Longest Numeric w.text word) :
    w.run decimalDigits = (unseparated word, w.pass word.length) := by
  obtain ⟨rest, htext⟩ := h.begins
  rw [← htext] at h
  exact run_of_grouped h.mem.grouped (h.endsDigits fun _ => h.mem.append) htext.symm

theorem run_of_longest_grouped (h : Longest Grouped w.text word) :
    w.run decimalDigits = (unseparated word, w.pass word.length) := by
  obtain ⟨rest, htext⟩ := h.begins
  rw [← htext] at h
  exact run_of_grouped h.mem (h.endsDigits fun _ => h.mem.append) htext.symm

theorem run_radixDigits {base : Nat} (h : Longest (DigitsOf base) w.text word) :
    w.run (radixDigits base) = (word, w.pass word.length) := by
  obtain ⟨rest, htext⟩ := h.begins
  rw [← htext] at h
  apply run_keep htext.symm
  · intro c hc d
    simp [radixDigits, h.mem c hc]
  · intro c hc d
    have hdigit : isDigitOf base c = false := by
      rw [Bool.eq_false_iff]
      intro hdigit
      obtain ⟨more, rfl⟩ := List.head?_eq_some_iff.mp hc
      have hword : DigitsOf base (word ++ [c]) := by
        intro d hd
        rcases List.mem_append.mp hd with hd | hd
        · exact h.mem d hd
        · rwa [List.mem_singleton.mp hd]
      exact absurd (h.eq_nil_of_append hword ⟨more, rfl⟩) (by simp)
    simp [radixDigits, hdigit]

/-! ## Decimal literals -/

theorem sign?_of_none (h : ∀ c ∈ w.text.head?, c ≠ '+' ∧ c ≠ '-') : w.sign? = (none, w) := by
  unfold sign?
  split
  · next c hc =>
    rw [current?_eq_head?] at hc
    rw [if_neg (by simpa using h c hc)]
  · rfl

theorem sign?_of_text {sign : Char} (hsign : sign = '+' ∨ sign = '-') (h : w.text = sign :: rest) :
    w.sign? = (some sign, w.advance) := by
  simp only [sign?, current?_of_text h, if_pos hsign]

theorem exponent_of_sign {mark : Char} {start : Nat} {sign : Option Char} {v : Window}
    {digits : List Char} (hsign : w.sign? = (sign, v)) (h : Longest Grouped v.text digits) :
    exponent mark start w =
      blame start (if digits = [] then .error .emptyExponent else .ok ⟨mark, sign, unseparated digits⟩)
        (v.pass digits.length) := by
  simp only [exponent, hsign, run_of_longest_grouped h, List.isEmpty_iff,
    unseparated_eq_nil_iff h.mem]
  split <;> rfl

/-- Behind a mark there is an exponent. -/
theorem exponent?_of_mark {mark : Char} (start : Nat) (hmark : isExponentMark mark = true)
    (h : w.text = mark :: rest) :
    exponent? start w
      = ((exponent mark start w.advance).1.map some, (exponent mark start w.advance).2) := by
  simp only [exponent?, current?_of_text h, if_pos hmark]

theorem exponent?_of_begins {e : Option Exponent} (start : Nat) (h : BeginsExponent w.text e) :
    exponent? start w =
      blame start (if ∀ x ∈ e, x.digits ≠ [] then .ok (e.map Exponent.unseparated)
          else .error .emptyExponent)
        (w.pass (e.elim [] Exponent.chars).length) := by
  generalize htext : w.text = text at h
  cases h with
  | none hmark =>
    have hnone : exponent? start w = (.ok none, w) := by
      unfold exponent?
      split
      · next c hc =>
        rw [current?_eq_head?, htext] at hc
        rw [if_neg (by simp [hmark c hc])]
      · rfl
    simp [hnone]
  | @unsigned mark rest digits hmark hsign hdigits =>
    have hadvance := text_advance_of_text htext
    rw [← hadvance] at hsign hdigits
    rw [exponent?_of_mark start hmark htext, exponent_of_sign (sign?_of_none hsign) hdigits]
    by_cases hempty : digits = []
    · simp [hempty, Exponent.chars, Except.map]
    · simp [hempty, Exponent.chars, Except.map, Exponent.unseparated, pass_succ]
  | @signed mark sign rest digits hmark hsign hdigits =>
    have hadvance := text_advance_of_text htext
    have hbehind := text_advance_of_text hadvance
    rw [← hbehind] at hdigits
    rw [exponent?_of_mark start hmark htext,
      exponent_of_sign (sign?_of_text hsign hadvance) hdigits]
    by_cases hempty : digits = []
    · simp [hempty, Exponent.chars, Except.map, pass_succ]
    · simp [hempty, Exponent.chars, Except.map, Exponent.unseparated, pass_succ]

/-- An exponent is all that can go wrong with the form of a decimal literal. -/
theorem map_exponent (start : Nat) (whole : List Char) (fraction : Option (List Char))
    (e : Option Exponent) (v : Window) :
    ((blame start (if ∀ x ∈ e, x.digits ≠ [] then .ok (e.map Exponent.unseparated)
          else .error .emptyExponent) v).1.map
        (DecimalNumeral.mk (unseparated whole) (fraction.map unseparated)), v) =
      blame start (if DecimalNumeral.Complete ⟨whole, fraction, e⟩
        then .ok (DecimalNumeral.unseparated ⟨whole, fraction, e⟩) else .error .emptyExponent) v := by
  by_cases hcomplete : ∀ x ∈ e, x.digits ≠ []
  · have hnumeral : DecimalNumeral.Complete ⟨whole, fraction, e⟩ := hcomplete
    rw [if_pos hcomplete, if_pos hnumeral]
    rfl
  · have hnumeral : ¬ DecimalNumeral.Complete ⟨whole, fraction, e⟩ := hcomplete
    rw [if_neg hcomplete, if_neg hnumeral]
    rfl

theorem decimalNumeral_of_begins {n : DecimalNumeral} (start : Nat) (h : BeginsDecimal w.text n) :
    decimalNumeral start w =
      blame start (if n.Complete then .ok n.unseparated else .error .emptyExponent)
        (w.pass n.chars.length) := by
  generalize htext : w.text = text at h
  cases h with
  | @whole whole rest e hwhole hpoint hexponent =>
    rw [← htext] at hwhole
    have hbehind := text_pass_of_text htext
    rw [← hbehind] at hexponent
    have hfraction : (w.pass whole.length).atFraction = false := by
      rw [atFraction_eq_beginsFraction, hbehind, hpoint]
    have hexponentRead := exponent?_of_begins start hexponent
    rw [pass_pass] at hexponentRead
    rw [← map_exponent, DecimalNumeral.chars_eq]
    simp only [decimalNumeral, run_of_numeric hwhole, hfraction, Bool.false_eq_true, if_false,
      hexponentRead, Option.elim_none, List.nil_append, List.length_append]
    rfl
  | @point whole rest hwhole hpoint hdigit =>
    rw [← htext] at hwhole
    have hbehind := text_pass_of_text htext
    have hfraction : (w.pass whole.length).atFraction = true := by
      rw [atFraction_eq_beginsFraction, hbehind, hpoint]
    have hrest := text_advance_of_text hbehind
    rw [advance_pass] at hrest
    have hplaces : (w.pass (whole.length + 1)).run decimalDigits
        = ([], w.pass (whole.length + 1)) := by
      apply run_stop
      rw [hrest]
      exact fun c hc => decimalDigits_of_point hpoint hdigit c hc
    rw [DecimalNumeral.chars_eq]
    simp [decimalNumeral, run_of_numeric hwhole, hfraction, advance_pass, hplaces,
      DecimalNumeral.Complete, DecimalNumeral.unseparated, unseparated]
  | @fraction whole places rest e hwhole hplaces hexponent =>
    rw [← htext] at hwhole
    have hbehind := text_pass_of_text htext
    have hfraction : (w.pass whole.length).atFraction = true := by
      rw [atFraction_eq_beginsFraction, hbehind, beginsFraction_of_numeric hplaces.mem]
    have hrest := text_advance_of_text hbehind
    rw [advance_pass] at hrest
    have hplacesBehind := text_pass_of_text hrest
    rw [pass_pass] at hplacesBehind
    rw [← hrest] at hplaces
    rw [← hplacesBehind] at hexponent
    have hplacesRead := run_of_numeric hplaces
    have hexponentRead := exponent?_of_begins start hexponent
    rw [pass_pass] at hplacesRead hexponentRead
    have hne : unseparated places ≠ [] := by
      rw [Ne, unseparated_eq_nil_iff hplaces.mem.grouped]
      exact hplaces.mem.ne_nil
    have hlength : (DecimalNumeral.mk whole (some places) e).chars.length
        = whole.length + 1 + places.length + (e.elim [] Exponent.chars).length := by
      rw [DecimalNumeral.chars_eq]
      simp only [Option.elim_some, List.length_append, List.length_cons]
      omega
    rw [← map_exponent, hlength]
    simp only [decimalNumeral, run_of_numeric hwhole, hfraction, if_true, advance_pass, hplacesRead,
      List.isEmpty_iff, if_neg hne, hexponentRead]
    rfl

theorem decimalNumber_of_begins {n : DecimalNumeral} (start : Nat) (h : BeginsDecimal w.text n) :
    decimalNumber start w = blame start n.outcome (w.pass n.chars.length) := by
  have hread := decimalNumeral_of_begins start h
  by_cases hcomplete : n.Complete
  · rw [if_pos hcomplete, blame_ok] at hread
    simp only [decimalNumber, hread, DecimalNumeral.outcome, if_pos hcomplete]
    split <;> rfl
  · rw [if_neg hcomplete, blame_error] at hread
    simp only [decimalNumber, hread, DecimalNumeral.outcome, if_neg hcomplete, blame_error]

/-! ## Literals of either kind -/

/-- Digits that are read as a word have the outcome of the number that they write, and the word is
    converted as that number is. -/
theorem radixNumber_of_longest {r : Radix} {digits : List Char} (start : Nat) (hbase : 0 < r.base)
    (h : Longest (DigitsOf r.base) w.text digits) :
    radixNumber r start w = blame start (r.outcome digits) (w.pass digits.length) := by
  simp only [radixNumber, run_radixDigits h, Radix.outcome, List.isEmpty_iff]
  split
  · rfl
  · next hne =>
    have hsome := isSome_word?_iff hbase hne h.mem
    rw [← Radix.value] at hsome
    cases hword : word? r.base digits with
    | none =>
      rw [hword] at hsome
      simp only [if_neg fun hlt => Bool.false_ne_true (hsome.mpr hlt), blame_error]
    | some word =>
      have hvalue := ofWord_of_word? hbase hne h.mem hword
      rw [← Radix.value] at hvalue
      rw [hword] at hsome
      simp only [if_pos (hsome.mp rfl), hvalue, blame_ok]

theorem unguardedNumber_of_begins {literal : NumberLiteral} (h : literal.Begins w.text) :
    unguardedNumber w = blame w.position literal.outcome (w.pass literal.chars.length) := by
  have hradix : w.radix? = radixOf? w.text := radix?_append closes_nil (List.append_nil _).symm
  generalize htext : w.text = text at h hradix
  cases h with
  | @radix mark rest digits r hmark hdigits =>
    have hsome : radixOf? ('0' :: mark :: rest) = some r := hmark
    have hrest : (w.pass 2).text = rest := text_advance_of_text (text_advance_of_text htext)
    rw [← hrest] at hdigits
    have hread := radixNumber_of_longest w.position (Radix.base_pos hmark) hdigits
    rw [pass_pass, Nat.add_comm] at hread
    simp only [unguardedNumber, hradix, hsome]
    exact hread
  | decimal hnone hn =>
    rw [← htext] at hn
    simp only [unguardedNumber, hradix, hnone]
    exact decimalNumber_of_begins w.position hn

/-- **A literal that the text begins with is what is scanned of it as a number.** -/
theorem number_of_begins {literal : NumberLiteral} {behind : List Char}
    (h : literal.Begins w.text) (htext : w.text = literal.chars ++ behind) :
    w.number = (placedAt w.position (literal.result behind), w.pass literal.chars.length) := by
  have hposition := position_pass_of_text htext
  have hbehind := text_pass_of_text htext
  cases houtcome : literal.outcome with
  | error cause =>
    simp only [number, unguardedNumber_of_begins h, NumberLiteral.result, houtcome, blame_error,
      placedAt_error, spanFrom, hposition]
  | ok x =>
    simp only [number, unguardedNumber_of_begins h, NumberLiteral.result, houtcome, blame_ok,
      current?_eq_head?, hbehind, hposition]
    split
    · rfl
    · rfl

end Window

/-! ## Main result -/

namespace Window

variable {w : Window}

-- The mark of a radix alone makes a literal, if a bad one.
example : (ofText "0xg".toList).nextToken.1 = .error ⟨.emptyRadixDigits, ⟨0, 2⟩⟩ := by
  decide +kernel

end Window

end FormulaSyntax
