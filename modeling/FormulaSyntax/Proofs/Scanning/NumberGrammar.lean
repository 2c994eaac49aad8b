import FormulaSyntax.Proofs.Scanning.Placing
import Mathlib.Data.Nat.Find

/-!
# The grammar of number literals

Which literal a text begins with is said here with no reference to windows and runs. Every part of a
literal is the **longest** word of a small language that stands in its place: digits of a radix,
`D(_?D)*` for the whole part and the fraction of a decimal literal, `(_?D)*` for its exponent.
`NumberLiteral.Begins` puts the parts together, and `NumberLiteral.result` says what becomes of them,
errors included and in their order.

A longest word is there whenever there is a word at all, so every text that begins with a digit
begins with a literal (`NumberLiteral.exists_begins`).

A literal as written holds its separators. Its value is that of the numeral without them.
-/

set_option autoImplicit false

namespace FormulaSyntax

open Window (beginsFraction radixOf?)

/-! ## Longest words -/

/-- The longest word of a language that a text begins with. -/
structure Longest (language : List Char → Prop) (text word : List Char) : Prop where
  mem : language word
  begins : word <+: text
  length_le : ∀ other, language other → other <+: text → other.length ≤ word.length

/-- Digits, some of them with a separator in front: `(_?D)*`. -/
inductive Grouped : List Char → Prop
  | nil : Grouped []
  | digit {c : Char} {rest : List Char} : c.isDigit = true → Grouped rest → Grouped (c :: rest)
  | separated {c : Char} {rest : List Char} :
      c.isDigit = true → Grouped rest → Grouped ('_' :: c :: rest)

/-- The same with a digit at the beginning: `D(_?D)*`. -/
def Numeric (word : List Char) : Prop :=
  ∃ c rest, word = c :: rest ∧ c.isDigit = true ∧ Grouped rest

def DigitsOf (base : Nat) (word : List Char) : Prop := ∀ c ∈ word, isDigitOf base c = true

/-- What is left of a word without its separators. -/
def unseparated (word : List Char) : List Char := word.filter (· != '_')

/-! ## Literals -/

/-- A number literal as it is written, separators included. -/
inductive NumberLiteral where
  | radix (mark : Char) (radix : Radix) (digits : List Char)
  | decimal (numeral : DecimalNumeral)
deriving DecidableEq

/-- The exponent that a text begins with, if there is a mark: a sign if there is one, and the longest
    digits behind it. -/
inductive BeginsExponent : List Char → Option Exponent → Prop
  | none {text : List Char} :
      (∀ c ∈ text.head?, isExponentMark c = false) → BeginsExponent text none
  | unsigned {mark : Char} {text digits : List Char} :
      isExponentMark mark = true → (∀ c ∈ text.head?, c ≠ '+' ∧ c ≠ '-') →
        Longest Grouped text digits → BeginsExponent (mark :: text) (some ⟨mark, none, digits⟩)
  | signed {mark sign : Char} {text digits : List Char} :
      isExponentMark mark = true → sign = '+' ∨ sign = '-' →
        Longest Grouped text digits →
          BeginsExponent (mark :: sign :: text) (some ⟨mark, some sign, digits⟩)

/-- The decimal literal that a text begins with. A point belongs to it unless a letter or `_` follows,
    and only behind digits of a fraction there is an exponent as well. -/
inductive BeginsDecimal : List Char → DecimalNumeral → Prop
  | whole {whole rest : List Char} {exponent : Option Exponent} :
      Longest Numeric (whole ++ rest) whole → beginsFraction rest = false →
        BeginsExponent rest exponent → BeginsDecimal (whole ++ rest) ⟨whole, none, exponent⟩
  | point {whole rest : List Char} :
      Longest Numeric (whole ++ '.' :: rest) whole → beginsFraction ('.' :: rest) = true →
        (∀ c ∈ rest.head?, c.isDigit = false) →
          BeginsDecimal (whole ++ '.' :: rest) ⟨whole, some [], none⟩
  | fraction {whole places rest : List Char} {exponent : Option Exponent} :
      Longest Numeric (whole ++ '.' :: (places ++ rest)) whole →
        Longest Numeric (places ++ rest) places → BeginsExponent rest exponent →
          BeginsDecimal (whole ++ '.' :: (places ++ rest)) ⟨whole, some places, exponent⟩

/-- The exponent without its separators. -/
def Exponent.unseparated (e : Exponent) : Exponent :=
  { e with digits := FormulaSyntax.unseparated e.digits }

namespace DecimalNumeral

/-- The numeral without its separators. -/
def unseparated (n : DecimalNumeral) : DecimalNumeral :=
  ⟨FormulaSyntax.unseparated n.whole, n.fraction.map FormulaSyntax.unseparated,
    n.exponent.map Exponent.unseparated⟩

/-- An exponent, if there is one, has digits. -/
def Complete (n : DecimalNumeral) : Prop := ∀ e ∈ n.exponent, e.digits ≠ []

instance (n : DecimalNumeral) : Decidable n.Complete := by
  unfold Complete
  infer_instance

/-- What becomes of a literal, whatever is behind it. -/
def outcome (n : DecimalNumeral) : Except LexCause Binary64 :=
  if n.Complete then
    if n.unseparated.value.isFinite then .ok n.unseparated.value
    else .error (.invalidNumber n.unseparated.text)
  else .error .emptyExponent

end DecimalNumeral

theorem Radix.base_pos {mark : Char} {r : Radix} (h : ofMark? mark = some r) : 0 < r.base := by
  unfold ofMark? at h
  split at h
  · cases h
    decide
  · split at h
    · cases h
      decide
    · split at h
      · cases h
        decide
      · cases h

/-- The number that digits of a radix write. -/
def Radix.value (r : Radix) (digits : List Char) : Nat := digitsValue r.base digits

/-- What becomes of a literal, whatever is behind it. -/
def Radix.outcome (r : Radix) (digits : List Char) : Except LexCause Binary64 :=
  if digits = [] then .error .emptyRadixDigits
  else if r.value digits < 2 ^ 64 then .ok (Binary64.ofNat (r.value digits))
  else .error (.invalidNumber (r.mark ++ String.ofList digits))

namespace NumberLiteral

def chars : NumberLiteral → List Char
  | radix mark _ digits => '0' :: mark :: digits
  | decimal n => n.chars

/-- The number literal that a text begins with: one with a radix if a mark is behind a leading zero,
    else a decimal one. -/
inductive Begins : List Char → NumberLiteral → Prop
  | radix {mark : Char} {rest digits : List Char} {r : Radix} :
      Radix.ofMark? mark = some r → Longest (DigitsOf r.base) rest digits →
        Begins ('0' :: mark :: rest) (.radix mark r digits)
  | decimal {text : List Char} {n : DecimalNumeral} :
      radixOf? text = none → BeginsDecimal text n → Begins text (.decimal n)

def outcome : NumberLiteral → Except LexCause Binary64
  | radix _ r digits => r.outcome digits
  | decimal n => n.outcome

/-- The result for a literal in front of a text. An error comes with the number of characters that it
    spans: all of the literal, and a separator that is left behind it. -/
def result (literal : NumberLiteral) (behind : List Char) : Except (LexCause × Nat) Binary64 :=
  match literal.outcome with
  | .error cause => .error (cause, literal.chars.length)
  | .ok x =>
    if behind.head? = some '_' then .error (.trailingUnderscore, literal.chars.length + 1)
    else .ok x

end NumberLiteral

/-! ## Longest words exist -/

section Words

variable {language : List Char → Prop} {text word rest : List Char}

/-- Words that a text begins with are no longer than the text, so there is a longest one. -/
theorem exists_longest {first : List Char} (h : language first) (hfirst : first <+: text) :
    ∃ word, Longest language text word := by
  classical
  let P := fun n => n ≤ text.length ∧ language (text.take n)
  have hP : ∀ {other}, language other → other <+: text → P other.length := by
    intro other hother hbegins
    refine ⟨hbegins.length_le, ?_⟩
    rwa [← List.prefix_iff_eq_take.mp hbegins]
  have hspec : P (Nat.findGreatest P text.length) :=
    Nat.findGreatest_spec hfirst.length_le (hP h hfirst)
  refine ⟨text.take (Nat.findGreatest P text.length), hspec.2, List.take_prefix _ _, ?_⟩
  intro other hother hbegins
  rw [List.length_take_of_le hspec.1]
  exact Nat.le_findGreatest hbegins.length_le (hP hother hbegins)

/-- A word is the longest one if none of the language goes on with what is behind it. -/
theorem Longest.of_append (hword : language word)
    (hmore : ∀ more, language (word ++ more) → more <+: rest → more = []) :
    Longest language (word ++ rest) word := by
  refine ⟨hword, List.prefix_append word rest, ?_⟩
  intro other hother hbegins
  rcases Nat.le_total other.length word.length with hle | hle
  · exact hle
  · obtain ⟨more, rfl⟩ := List.prefix_of_prefix_length_le (List.prefix_append word rest) hbegins hle
    rw [hmore more hother (List.prefix_append_right_inj word |>.mp hbegins), List.append_nil]

/-- A word is the longest one if no word goes on with the next character. -/
theorem Longest.of_head {allowed : Char → Prop}
    (hlanguage : ∀ other, language other → ∀ c ∈ other, allowed c) (hword : language word)
    (hrest : ∀ c ∈ rest.head?, ¬ allowed c) : Longest language (word ++ rest) word := by
  refine .of_append hword ?_
  intro more hmore hbegins
  cases more with
  | nil => rfl
  | cons c more =>
    obtain ⟨behind, rfl⟩ := hbegins
    exact absurd (hlanguage _ hmore c (by simp)) (hrest c rfl)

/-- Nothing of what is behind a longest word continues it. -/
theorem Longest.eq_nil_of_append {more : List Char} (h : Longest language (word ++ rest) word)
    (hword : language (word ++ more)) (hmore : more <+: rest) : more = [] := by
  have hle := h.length_le _ hword (List.prefix_append_right_inj word |>.mpr hmore)
  rw [List.length_append] at hle
  exact List.eq_nil_of_length_eq_zero (by omega)

theorem Grouped.append {more : List Char} (h : Grouped word) (hmore : Grouped more) :
    Grouped (word ++ more) := by
  induction h with
  | nil => exact hmore
  | digit hc _ ih => exact ih.digit hc
  | separated hc _ ih => exact ih.separated hc

theorem Numeric.grouped (h : Numeric word) : Grouped word := by
  obtain ⟨c, rest, rfl, hc, hrest⟩ := h
  exact hrest.digit hc

theorem Grouped.mem (h : Grouped word) : ∀ c ∈ word, c.isDigit = true ∨ c = '_' := by
  induction h with
  | nil => exact nofun
  | digit hc _ ih => exact List.forall_mem_cons.mpr ⟨.inl hc, ih⟩
  | separated hc _ ih =>
    exact List.forall_mem_cons.mpr ⟨.inr rfl, List.forall_mem_cons.mpr ⟨.inl hc, ih⟩⟩

theorem Numeric.append {more : List Char} (h : Numeric word) (hmore : Grouped more) :
    Numeric (word ++ more) := by
  obtain ⟨c, rest, rfl, hc, hrest⟩ := h
  exact ⟨c, rest ++ more, rfl, hc, hrest.append hmore⟩

/-- No digits, with a separator or without, go on in this text. -/
def EndsDigits (rest : List Char) : Prop := ∀ more, Grouped more → more <+: rest → more = []

theorem Longest.endsDigits (happend : ∀ more, Grouped more → language (word ++ more))
    (h : Longest language (word ++ rest) word) : EndsDigits rest := by
  intro more hmore hbegins
  exact h.eq_nil_of_append (happend more hmore) hbegins

theorem Numeric.ne_nil (h : Numeric word) : word ≠ [] := by
  obtain ⟨c, rest, rfl, -, -⟩ := h
  exact List.cons_ne_nil c rest

theorem ne_separator_of_isDigit {c : Char} (h : c.isDigit = true) : c ≠ '_' := by
  rintro rfl
  exact absurd h (by decide)

/-- Where there are separators there are digits, so leaving them out leaves something. -/
theorem unseparated_eq_nil_iff (h : Grouped word) : unseparated word = [] ↔ word = [] := by
  cases h with
  | nil => exact iff_of_true rfl rfl
  | digit hc => simp [unseparated, ne_separator_of_isDigit hc]
  | separated hc => simp [unseparated, ne_separator_of_isDigit hc]

end Words

/-! ## Every text with a digit in front begins with a literal -/

section Existence

variable {text : List Char}

/-- Behind a mark there is an exponent, be it one without digits. -/
theorem exists_beginsExponent (text : List Char) : ∃ e, BeginsExponent text e := by
  have hdigits : ∀ text, ∃ digits, Longest Grouped text digits :=
    fun _ => exists_longest .nil List.nil_prefix
  by_cases hnone : ∀ c ∈ text.head?, isExponentMark c = false
  · exact ⟨none, .none hnone⟩
  · cases text with
    | nil => simp at hnone
    | cons mark rest =>
      have hmark : isExponentMark mark = true := by simpa using hnone
      by_cases hsign : ∀ c ∈ rest.head?, c ≠ '+' ∧ c ≠ '-'
      · obtain ⟨digits, hdigits⟩ := hdigits rest
        exact ⟨_, .unsigned hmark hsign hdigits⟩
      · cases rest with
        | nil => simp at hsign
        | cons sign rest =>
          have hsign : sign = '+' ∨ sign = '-' := by
            simpa [Decidable.or_iff_not_imp_left] using hsign
          obtain ⟨digits, hdigits⟩ := hdigits rest
          exact ⟨_, .signed hmark hsign hdigits⟩

theorem exists_beginsDecimal {c : Char} (hdigit : c.isDigit = true) (rest : List Char) :
    ∃ n, BeginsDecimal (c :: rest) n := by
  have hlongest : ∀ {c : Char}, c.isDigit = true → ∀ rest, ∃ word, Longest Numeric (c :: rest) word :=
    fun hc _ => exists_longest ⟨_, [], rfl, hc, .nil⟩ ⟨_, rfl⟩
  obtain ⟨whole, hwhole⟩ := hlongest hdigit rest
  obtain ⟨behind, hbehind⟩ := hwhole.begins
  rw [← hbehind] at hwhole ⊢
  by_cases hpoint : beginsFraction behind = true
  · cases behind with
    | nil => exact nomatch hpoint
    | cons point behind =>
      obtain rfl : point = '.' := by
        simp only [beginsFraction, Bool.and_eq_true, beq_iff_eq] at hpoint
        exact Option.some.inj hpoint.1
      by_cases hplaces : ∀ c ∈ behind.head?, c.isDigit = false
      · exact ⟨_, .point hwhole hpoint hplaces⟩
      · cases behind with
        | nil => simp at hplaces
        | cons d behind =>
          have hd : d.isDigit = true := by simpa using hplaces
          obtain ⟨places, hplaces⟩ := hlongest hd behind
          obtain ⟨others, hothers⟩ := hplaces.begins
          rw [← hothers] at hplaces hwhole ⊢
          obtain ⟨e, he⟩ := exists_beginsExponent others
          exact ⟨_, .fraction hwhole hplaces he⟩
  · obtain ⟨e, he⟩ := exists_beginsExponent behind
    exact ⟨_, .whole hwhole (Bool.eq_false_iff.mpr hpoint) he⟩

/-- **A text with a digit in front begins with a literal**, as every part of one has a longest
    word. -/
theorem NumberLiteral.exists_begins {c : Char} (hdigit : c.isDigit = true) (rest : List Char) :
    ∃ literal, Begins (c :: rest) literal := by
  cases hradix : radixOf? (c :: rest) with
  | none =>
    obtain ⟨n, hn⟩ := exists_beginsDecimal hdigit rest
    exact ⟨_, .decimal hradix hn⟩
  | some r =>
    by_cases hzero : c = '0'
    · cases rest with
      | nil => simp [radixOf?] at hradix
      | cons mark rest =>
        have hmark : Radix.ofMark? mark = some r := by simpa [radixOf?, hzero] using hradix
        have hnil : DigitsOf r.base [] := List.forall_mem_nil _
        have hbegins : [] <+: rest := List.nil_prefix
        obtain ⟨digits, hdigits⟩ := exists_longest hnil hbegins
        rw [hzero]
        exact ⟨_, .radix hmark hdigits⟩
    · simp [radixOf?, hzero] at hradix

theorem BeginsExponent.chars_begin {e : Option Exponent} (h : BeginsExponent text e) :
    e.elim [] Exponent.chars <+: text := by
  cases h with
  | none => exact List.nil_prefix
  | unsigned _ _ hdigits => simpa [Exponent.chars] using hdigits.begins
  | signed _ _ hdigits => simpa [Exponent.chars] using hdigits.begins

theorem BeginsDecimal.chars_begin {n : DecimalNumeral} (h : BeginsDecimal text n) :
    n.chars <+: text := by
  rw [DecimalNumeral.chars_eq]
  cases h with
  | whole _ _ hexponent => simpa using hexponent.chars_begin
  | point => simp
  | fraction _ _ hexponent => simpa using hexponent.chars_begin

theorem NumberLiteral.Begins.chars_begin {literal : NumberLiteral} (h : literal.Begins text) :
    literal.chars <+: text := by
  cases h with
  | radix _ hdigits => simpa [NumberLiteral.chars] using hdigits.begins
  | decimal _ hn => exact hn.chars_begin

/-- A literal is told by its first character. -/
theorem NumberLiteral.Begins.exists_digit {literal : NumberLiteral}
    (h : literal.Begins text) : ∃ c others, literal.chars = c :: others ∧ c.isDigit = true := by
  cases h with
  | @radix mark _ digits _ _ _ => exact ⟨'0', mark :: digits, rfl, by decide⟩
  | @decimal _ n _ hn =>
    have hnumeral : ∃ c others, n.whole = c :: others ∧ c.isDigit = true := by
      cases hn with
      | whole hwhole | point hwhole | fraction hwhole =>
        obtain ⟨c, others, hcons, hc, -⟩ := hwhole.mem
        exact ⟨c, others, hcons, hc⟩
    obtain ⟨c, others, hcons, hc⟩ := hnumeral
    rw [chars, DecimalNumeral.chars_eq, hcons]
    exact ⟨c, _, rfl, hc⟩

end Existence

theorem NumberLiteral.outcome_of_result {literal : NumberLiteral} {behind : List Char}
    {x : Binary64} (h : literal.result behind = .ok x) : literal.outcome = .ok x := by
  unfold result at h
  split at h
  · exact nomatch h
  · next houtcome =>
    split at h
    · exact nomatch h
    · rw [houtcome, Except.ok.inj h]

end FormulaSyntax
