import FormulaSyntax.Proofs.Scanning.Lexable

/-!
# Scanning a text, wherever it stands

What a scanner makes of a text is a matter of the text. It does not depend on where the text
stands in the source, and not on what is behind it, if that **closes** the text: if it is nothing, or
begins with a blank, a line feed or a carriage return. Positions come in only where a result is
given its place.

So each statement here has the same form: for every text there are a result and a number of
characters, such that **every window on that text yields the result, placed where the window
stands, and has passed that number of characters**. The proofs follow the scanners line by line
and carry what is left of the text.

Strings are the exception. Without their closing quote they may run into what is behind them, so
about a scan that fails nothing is said unless nothing is behind.
-/

set_option autoImplicit false

namespace FormulaSyntax

/-! ## What closes a text -/

/-- A character that no lexeme but a string goes on with. -/
def isCloser (c : Char) : Bool := isBlank c || c == '\n' || c == '\r'

/-- Nothing, or a text that begins with a closer. -/
def Closes (behind : List Char) : Prop := ∀ c ∈ behind.head?, isCloser c = true

theorem closes_nil : Closes [] := nofun

theorem closes_lineFeed (more : List Char) : Closes ('\n' :: more) := by
  intro c hc
  obtain rfl : '\n' = c := Option.some.inj hc
  rfl

theorem closes_return : Closes ['\r'] := by
  intro c hc
  obtain rfl : '\r' = c := Option.some.inj hc
  rfl

/-- The closers one by one. -/
def closers : List Char := [' ', '\t', '\n', '\r']

/-- There are four closers, so what holds of all of them can be computed. -/
theorem mem_closers {c : Char} (h : isCloser c = true) : c ∈ closers := by
  simpa [isCloser, isBlank, closers, or_assoc] using h

/-- A class of characters without the four closers has no closer at all. -/
theorem eq_false_of_isCloser {c : Char} (h : isCloser c = true) (test : Char → Bool)
    (htest : closers.any test = false) : test c = false :=
  Bool.eq_false_iff.mpr (List.any_eq_false.mp htest c (mem_closers h))

theorem ne_of_isCloser {c d : Char} (h : isCloser c = true) (hd : isCloser d = false) : c ≠ d := by
  rintro rfl
  rw [h] at hd
  exact nomatch hd

theorem ofMark?_of_isCloser {c : Char} (h : isCloser c = true) : Radix.ofMark? c = none :=
  ofMark?_eq_none (eq_false_of_isCloser h isNameStart rfl)

/-- Behind a closed text there is no character of a class without closers. -/
theorem Closes.any_head? {behind : List Char} (h : Closes behind) (test : Char → Bool)
    (htest : closers.any test = false) (text : List Char) :
    (text ++ behind).head?.any test = text.head?.any test := by
  cases text with
  | cons c rest => rfl
  | nil =>
    cases hb : behind.head? with
    | none => simp [hb]
    | some c => simp [hb, eq_false_of_isCloser (h c hb) test htest]

/-- What a scanner asks of the character in front it may ask of the text alone, as long as it asks
    for no closer. -/
theorem Closes.head?_eq_some_iff {behind : List Char} (h : Closes behind) {c : Char}
    (hc : isCloser c = false) (text : List Char) :
    (text ++ behind).head? = some c ↔ text.head? = some c := by
  cases text with
  | cons d rest => rfl
  | nil =>
    constructor
    · intro hb
      exact absurd rfl (ne_of_isCloser (h c hb) hc)
    · exact nofun

/-! ## Results without a place -/

section Results

variable {α : Type}

/-- A result of scanning inside a literal begun at `start`: an error spans what was scanned. -/
def blame (start : Nat) (r : Except LexCause α) (rest : Window) : Except LexError α × Window :=
  (r.mapError fun cause => ⟨cause, rest.spanFrom start⟩, rest)

/-- A result of scanning a lexeme at a position: with the cause of an error comes the number of
    characters in error. -/
def placedAt (position : Nat) (r : Except (LexCause × Nat) α) : Except LexError α :=
  r.mapError fun e => ⟨e.1, ⟨position, position + e.2⟩⟩

@[simp] theorem blame_ok (start : Nat) (a : α) (rest : Window) :
    blame start (.ok a) rest = (.ok a, rest) := rfl

@[simp] theorem blame_error (start : Nat) (cause : LexCause) (rest : Window) :
    blame start (.error cause : Except LexCause α) rest
      = (.error ⟨cause, rest.spanFrom start⟩, rest) := rfl

@[simp] theorem placedAt_ok (position : Nat) (a : α) : placedAt position (.ok a) = .ok a := rfl

@[simp] theorem placedAt_error (position : Nat) (cause : LexCause) (length : Nat) :
    placedAt position (.error (cause, length) : Except (LexCause × Nat) α)
      = .error ⟨cause, ⟨position, position + length⟩⟩ := rfl

/-- A scan inside a literal that makes the same of a text wherever it stands. -/
def Steady (scan : Nat → Window → Except LexError α × Window) (text : List Char) : Prop :=
  ∃ (r : Except LexCause α) (n : Nat), n ≤ text.length ∧
    ∀ (start : Nat) (w : Window) (behind : List Char), Closes behind → w.text = text ++ behind →
      scan start w = blame start r (w.pass n)

end Results

namespace Window

variable {w : Window} {text behind : List Char}

theorem text_pass_append {n : Nat} (hn : n ≤ text.length) (h : w.text = text ++ behind) :
    (w.pass n).text = text.drop n ++ behind := by
  rw [text_pass, h, List.drop_append_of_le_length hn]

/-- Positions move with the characters passed, as long as there are some to pass. -/
theorem position_pass_append {n : Nat} (hn : n ≤ text.length) (h : w.text = text ++ behind) :
    (w.pass n).position = w.position + n := by
  apply position_pass
  rw [h, List.length_append]
  omega

theorem position_pass_of_text (h : w.text = text ++ behind) :
    (w.pass text.length).position = w.position + text.length :=
  position_pass_append (Nat.le_refl _) h

theorem current?_append (h : w.text = text ++ behind) : w.current? = (text ++ behind).head? := by
  rw [current?_eq_head?, h]

/-! ## Runs -/

/-- A judge that stops in front of a closer, and takes one that follows for the end. -/
structure Seals (judge : Char → Option Char → Verdict) : Prop where
  stops : ∀ c d, isCloser c = true → judge c d = .stop
  blind : ∀ c d, isCloser d = true → judge c (some d) = judge c none

theorem Seals.judge_head? {judge : Char → Option Char → Verdict} (hj : Seals judge)
    (hb : Closes behind) (c : Char) (rest : List Char) :
    judge c (rest ++ behind).head? = judge c rest.head? := by
  cases rest with
  | cons d rest => rfl
  | nil =>
    cases h : behind.head? with
    | none => simp [h]
    | some d => simpa [h] using hj.blind c d (hb d h)

/-- One step of a run, with the text in the statement in place of the window's two characters. -/
theorem gather_of_text {judge : Char → Option Char → Verdict} {c : Char} {rest : List Char}
    (h : w.text = c :: rest) (kept : List Char) :
    gather judge w kept =
      match judge c rest.head? with
      | .keep => gather judge w.advance (c :: kept)
      | .skip => gather judge w.advance kept
      | .stop => (kept.reverse, w) := by
  rw [gather, ← following?_of_text h]
  split
  · next hc => simp [current?_of_text h] at hc
  · next d hd =>
    obtain rfl : c = d := Option.some.inj ((current?_of_text h).symm.trans hd)
    rfl

/-- The induction is on the text. Behind it there is nothing, or a closer, at which the judge
    stops. -/
theorem exists_gather {judge : Char → Option Char → Verdict} (hj : Seals judge)
    (text : List Char) :
    ∃ (more : List Char) (n : Nat), n ≤ text.length ∧
      ∀ (w : Window) (behind kept : List Char), Closes behind → w.text = text ++ behind →
        gather judge w kept = (kept.reverse ++ more, w.pass n) := by
  induction text with
  | nil =>
    refine ⟨[], 0, Nat.le_refl 0, ?_⟩
    intro w behind kept hb h
    rw [List.nil_append] at h
    rw [gather_of_stop kept fun c hc d => hj.stops c d (hb c (h ▸ hc)), List.append_nil, pass_zero]
  | cons c rest ih =>
    obtain ⟨more, n, hn, hgather⟩ := ih
    cases hv : judge c rest.head? with
    | keep =>
      refine ⟨c :: more, n + 1, Nat.succ_le_succ hn, ?_⟩
      intro w behind kept hb h
      rw [List.cons_append] at h
      have hadvance := text_advance_of_text h
      rw [gather_of_text h, hj.judge_head? hb, hv]
      simp only [hgather w.advance behind _ hb hadvance, pass_succ, List.reverse_cons,
        List.append_assoc, List.singleton_append]
    | skip =>
      refine ⟨more, n + 1, Nat.succ_le_succ hn, ?_⟩
      intro w behind kept hb h
      rw [List.cons_append] at h
      have hadvance := text_advance_of_text h
      rw [gather_of_text h, hj.judge_head? hb, hv]
      simp only [hgather w.advance behind _ hb hadvance, pass_succ]
    | stop =>
      refine ⟨[], 0, Nat.zero_le _, ?_⟩
      intro w behind kept hb h
      rw [List.cons_append] at h
      rw [gather_of_text h, hj.judge_head? hb, hv, List.append_nil, pass_zero]

/-- **A run keeps the same of a text wherever it stands.** -/
theorem exists_run {judge : Char → Option Char → Verdict} (hj : Seals judge) (text : List Char) :
    ∃ (kept : List Char) (n : Nat), n ≤ text.length ∧
      ∀ (w : Window) (behind : List Char), Closes behind → w.text = text ++ behind →
        w.run judge = (kept, w.pass n) := by
  obtain ⟨kept, n, hn, h⟩ := exists_gather hj text
  exact ⟨kept, n, hn, fun w behind hb ht => h w behind [] hb ht⟩

theorem seals_nameParts : Seals nameParts where
  stops c d hc := by
    have hpart := eq_false_of_isCloser hc isNamePart rfl
    simp [nameParts, hpart]
  blind _ _ _ := rfl

theorem seals_radixDigits (base : Nat) : Seals (radixDigits base) where
  stops c d hc := by
    have hnone : (digitValue? c).isSome = false :=
      eq_false_of_isCloser hc (fun c => (digitValue? c).isSome) rfl
    have hdigit : isDigitOf base c = false := by
      simp [isDigitOf, Option.not_isSome_iff_eq_none.mp (Bool.eq_false_iff.mp hnone)]
    simp [radixDigits, hdigit]
  blind _ _ _ := rfl

/-- A separator is passed over only in front of a digit, so one at the end of the text is left,
    whatever closer follows. -/
theorem seals_decimalDigits : Seals decimalDigits where
  stops c d hc := by
    have hdigit := eq_false_of_isCloser hc Char.isDigit rfl
    simp [decimalDigits, hdigit, ne_of_isCloser hc (by decide : isCloser '_' = false)]
  blind c d hd := by
    have hdigit := eq_false_of_isCloser hd Char.isDigit rfl
    simp [decimalDigits, hdigit]

/-! ## Numbers -/

/-- A sign is one character at most. -/
theorem exists_sign? (text : List Char) :
    ∃ (sign : Option Char) (n : Nat), n ≤ text.length ∧
      ∀ (w : Window) (behind : List Char), Closes behind → w.text = text ++ behind →
        w.sign? = (sign, w.pass n) := by
  by_cases hsign : text.head? = some '+' ∨ text.head? = some '-'
  · refine ⟨text.head?, 1, ?_, ?_⟩
    · cases text with
      | nil => simp at hsign
      | cons c rest => simp
    · intro w behind hb h
      cases text with
      | nil => simp at hsign
      | cons c rest =>
        have hc : c = '+' ∨ c = '-' := by simpa using hsign
        simp [sign?, current?_of_text h, hc]
  · refine ⟨none, 0, Nat.zero_le _, ?_⟩
    intro w behind hb h
    have hplus := hb.head?_eq_some_iff (c := '+') (by decide) text
    have hminus := hb.head?_eq_some_iff (c := '-') (by decide) text
    rw [← hplus, ← hminus, ← current?_append h] at hsign
    unfold sign?
    split
    · next c hc =>
      rw [if_neg]
      · rfl
      · rintro (rfl | rfl)
        · exact hsign (.inl hc)
        · exact hsign (.inr hc)
    · rfl

theorem steady_exponent (mark : Char) (text : List Char) : Steady (exponent mark) text := by
  obtain ⟨sign, n, hn, hsign⟩ := exists_sign? text
  obtain ⟨digits, m, hm, hdigits⟩ := exists_run seals_decimalDigits (text.drop n)
  rw [List.length_drop] at hm
  refine ⟨if digits.isEmpty then .error .emptyExponent else .ok ⟨mark, sign, digits⟩, n + m,
    by omega, ?_⟩
  intro start w behind hb h
  simp only [exponent, hsign w behind hb h, hdigits _ behind hb (text_pass_append hn h), pass_pass]
  split <;> rfl

theorem steady_exponent? (text : List Char) : Steady exponent? text := by
  cases text with
  | nil =>
    refine ⟨.ok none, 0, Nat.le_refl 0, ?_⟩
    intro start w behind hb h
    apply exponent?_eq_none
    intro c hc
    rw [h] at hc
    exact eq_false_of_isCloser (hb c hc) isNamePart rfl
  | cons c rest =>
    by_cases hmark : isExponentMark c = true
    · obtain ⟨r, n, hn, hread⟩ := steady_exponent c rest
      refine ⟨r.map some, n + 1, Nat.succ_le_succ hn, ?_⟩
      intro start w behind hb h
      have hadvance : w.advance.text = rest ++ behind := text_advance_of_text h
      simp only [exponent?, current?_of_text h, if_pos hmark, hread start _ behind hb hadvance,
        blame, pass_succ]
      cases r <;> rfl
    · refine ⟨.ok none, 0, Nat.zero_le _, ?_⟩
      intro start w behind hb h
      simp only [exponent?, current?_of_text h, if_neg hmark]
      rfl

/-- Whether a text begins with a fraction. -/
def beginsFraction (text : List Char) : Bool :=
  text.head? == some '.' && !text.tail.head?.any isNameStart

/-- Two characters decide whether a fraction begins. The second one may be the first behind the
    text, but no closer is a letter. -/
theorem atFraction_append (hb : Closes behind) (h : w.text = text ++ behind) :
    w.atFraction = beginsFraction text := by
  have hpoint : (w.current? == some '.') = (text.head? == some '.') := by
    rw [Bool.eq_iff_iff, beq_iff_eq, beq_iff_eq, current?_append h]
    exact hb.head?_eq_some_iff (by decide) text
  rw [atFraction, beginsFraction, hpoint]
  cases text with
  | nil => rfl
  | cons c rest =>
    rw [List.cons_append] at h
    rw [following?_of_text h, hb.any_head? isNameStart rfl, List.tail_cons]

theorem steady_decimalNumeral (text : List Char) : Steady decimalNumeral text := by
  obtain ⟨whole, n, hn, hwhole⟩ := exists_run seals_decimalDigits text
  by_cases hpoint : beginsFraction (text.drop n) = true
  · have hlength : n < text.length := by
      apply Nat.lt_of_not_le
      intro hle
      rw [List.drop_eq_nil_of_le hle] at hpoint
      exact nomatch hpoint
    obtain ⟨places, m, hm, hplaces⟩ := exists_run seals_decimalDigits (text.drop (n + 1))
    obtain ⟨r, k, hk, hexponent⟩ := steady_exponent? (text.drop (n + 1 + m))
    rw [List.length_drop] at hm hk
    refine ⟨if places.isEmpty then .ok ⟨whole, some places, none⟩
        else r.map fun e => ⟨whole, some places, e⟩,
      if places.isEmpty then n + 1 + m else n + 1 + m + k, by split <;> omega, ?_⟩
    intro start w behind hb h
    have hrest : (w.pass (n + 1)).text = text.drop (n + 1) ++ behind := text_pass_append hlength h
    have hbehind : (w.pass (n + 1 + m)).text = text.drop (n + 1 + m) ++ behind :=
      text_pass_append (by omega) h
    simp only [decimalNumeral, hwhole w behind hb h, atFraction_append hb (text_pass_append hn h),
      hpoint, if_true, advance_pass, hplaces _ behind hb hrest, pass_pass,
      hexponent start _ behind hb hbehind]
    split
    · rfl
    · cases r <;> rfl
  · obtain ⟨r, k, hk, hexponent⟩ := steady_exponent? (text.drop n)
    rw [List.length_drop] at hk
    refine ⟨r.map fun e => ⟨whole, none, e⟩, n + k, by omega, ?_⟩
    intro start w behind hb h
    have hrest := text_pass_append hn h
    simp only [decimalNumeral, hwhole w behind hb h, atFraction_append hb hrest, hpoint,
      Bool.false_eq_true, if_false, hexponent start _ behind hb hrest, blame, pass_pass]
    cases r <;> rfl

theorem steady_decimalNumber (text : List Char) : Steady decimalNumber text := by
  obtain ⟨r, n, hn, hread⟩ := steady_decimalNumeral text
  cases r with
  | error cause =>
    refine ⟨.error cause, n, hn, ?_⟩
    intro start w behind hb h
    simp only [decimalNumber, hread start w behind hb h, blame_error]
  | ok numeral =>
    refine ⟨if numeral.value.isFinite then .ok numeral.value
      else .error (.invalidNumber numeral.text), n, hn, ?_⟩
    intro start w behind hb h
    simp only [decimalNumber, hread start w behind hb h, blame_ok]
    split <;> rfl

theorem steady_radixNumber (radix : Radix) (text : List Char) :
    Steady (radixNumber radix) text := by
  obtain ⟨digits, n, hn, hdigits⟩ := exists_run (seals_radixDigits radix.base) text
  refine ⟨if digits.isEmpty then .error .emptyRadixDigits
    else
      (word? radix.base digits).elim
        (.error (.invalidNumber (radix.mark ++ String.ofList digits)))
        fun word => .ok (Binary64.ofWord word), n, hn, ?_⟩
  intro start w behind hb h
  simp only [radixNumber, hdigits w behind hb h]
  split
  · rfl
  · cases word? radix.base digits <;> rfl

/-- The radix that the beginning of a text marks. -/
def radixOf? (text : List Char) : Option Radix :=
  if text.head? = some '0' then text.tail.head?.bind Radix.ofMark? else none

/-- The same for the mark of a radix: behind a closed text there is none. -/
theorem radix?_append (hb : Closes behind) (h : w.text = text ++ behind) :
    w.radix? = radixOf? text := by
  have hzero := hb.head?_eq_some_iff (c := '0') (by decide) text
  rw [← current?_append h] at hzero
  simp only [radix?, radixOf?, hzero]
  cases text with
  | nil => rfl
  | cons c rest =>
    rw [following?_of_text h, List.tail_cons]
    cases rest with
    | cons d rest => rfl
    | nil =>
      cases hd : behind.head? with
      | none => simp [hd]
      | some d => simp [hd, ofMark?_of_isCloser (hb d hd)]

theorem exists_unguardedNumber (text : List Char) :
    ∃ (r : Except LexCause Binary64) (n : Nat), n ≤ text.length ∧
      ∀ (w : Window) (behind : List Char), Closes behind → w.text = text ++ behind →
        unguardedNumber w = blame w.position r (w.pass n) := by
  cases hradix : radixOf? text with
  | none =>
    obtain ⟨r, n, hn, hread⟩ := steady_decimalNumber text
    refine ⟨r, n, hn, ?_⟩
    intro w behind hb h
    simp only [unguardedNumber, radix?_append hb h, hradix, hread w.position w behind hb h]
  | some radix =>
    have hlength : 2 ≤ text.length := by
      cases text with
      | nil => simp [radixOf?] at hradix
      | cons c text =>
        cases text with
        | nil => simp [radixOf?] at hradix
        | cons d text => simp
    obtain ⟨r, n, hn, hread⟩ := steady_radixNumber radix (text.drop 2)
    rw [List.length_drop] at hn
    refine ⟨r, 2 + n, by omega, ?_⟩
    intro w behind hb h
    have hrest := text_pass_append hlength h
    simp only [unguardedNumber, radix?_append hb h, hradix]
    rw [← pass_pass]
    exact hread w.position (w.pass 2) behind hb hrest

/-- A separator that is left behind a number is no closer, so it is in the text, and the place of
    that error is a matter of the text as well. -/
theorem exists_number (text : List Char) :
    ∃ (r : Except (LexCause × Nat) Binary64) (n : Nat), n ≤ text.length ∧
      ∀ (w : Window) (behind : List Char), Closes behind → w.text = text ++ behind →
        w.number = (placedAt w.position r, w.pass n) := by
  obtain ⟨r, n, hn, hread⟩ := exists_unguardedNumber text
  cases r with
  | error cause =>
    refine ⟨.error (cause, n), n, hn, ?_⟩
    intro w behind hb h
    simp only [number, hread w behind hb h, blame_error, placedAt_error, spanFrom,
      position_pass_append hn h]
  | ok x =>
    refine ⟨if (text.drop n).head? = some '_' then .error (.trailingUnderscore, n + 1) else .ok x,
      n, hn, ?_⟩
    intro w behind hb h
    have hseparator : (w.pass n).current? = some '_' ↔ (text.drop n).head? = some '_' := by
      rw [current?_append (text_pass_append hn h)]
      exact hb.head?_eq_some_iff (by decide) _
    simp only [number, hread w behind hb h, blame_ok, hseparator]
    split
    · simp only [placedAt_error, position_pass_append hn h, Nat.add_assoc]
    · rfl

/-! ## Strings -/

/-- One step in a string, with the text in the statement in place of the window's characters. -/
theorem quotationBody_of_text {c : Char} {rest : List Char} (h : w.text = c :: rest)
    (quote : Char) (content : List Char) :
    quotationBody quote w content =
      if c = quote then (some content.reverse, w.advance)
      else if c = '\\' then
        match w.advance.current? with
        | none => (none, w.advance)
        | some letter =>
          quotationBody quote w.advance.advance ((Escape.meaning letter).reverse ++ content)
      else if c = '\n' then (none, w)
      else quotationBody quote w.advance (c :: content) := by
  rw [quotationBody]
  split
  · next hc => simp [current?_of_text h] at hc
  · next d hd =>
    obtain rfl : c = d := Option.some.inj ((current?_of_text h).symm.trans hd)
    congr 2
    split <;> simp_all

/-- With its closing quote in the text, a string does not look at what is behind. The recursion is
    on the text, two characters at a time behind a backslash. -/
theorem exists_quotationBody (quote : Char) :
    ∀ text : List Char, ∃ (r : Option (List Char)) (n : Nat), n ≤ text.length ∧
      ∀ (w : Window) (behind content : List Char), (r.isSome = true ∨ behind = []) →
        w.text = text ++ behind →
          quotationBody quote w content = (r.map (content.reverse ++ ·), w.pass n)
  | [] => by
    refine ⟨none, 0, Nat.le_refl 0, ?_⟩
    intro w behind content hb h
    obtain rfl : behind = [] := hb.resolve_left Bool.false_ne_true
    have hnone : w.current? = none := by rw [current?_eq_head?, h]; rfl
    rw [quotationBody]
    split
    · rfl
    · next c hc => exact nomatch hnone.symm.trans hc
  | c :: rest => by
    by_cases hquote : c = quote
    · refine ⟨some [], 1, by simp, ?_⟩
      intro w behind content _ h
      rw [quotationBody_of_text h, if_pos hquote]
      simp
    · by_cases hslash : c = '\\'
      · match rest with
        | [] =>
          refine ⟨none, 1, by simp, ?_⟩
          intro w behind content hb h
          obtain rfl : behind = [] := hb.resolve_left Bool.false_ne_true
          have hnone : w.advance.current? = none := by
            rw [current?_eq_head?, text_advance_of_text h]
            rfl
          rw [quotationBody_of_text h, if_neg hquote, if_pos hslash, hnone]
          rfl
        | letter :: rest =>
          obtain ⟨r, n, hn, hread⟩ := exists_quotationBody quote rest
          refine ⟨r.map (Escape.meaning letter ++ ·), n + 2, by simpa using hn, ?_⟩
          intro w behind content hb h
          have hadvance : w.advance.text = letter :: (rest ++ behind) := text_advance_of_text h
          rw [Option.isSome_map] at hb
          rw [quotationBody_of_text h, if_neg hquote, if_pos hslash, current?_of_text hadvance]
          simp only [hread _ behind _ hb (text_advance_of_text hadvance), pass_succ,
            List.reverse_append, List.reverse_reverse, Option.map_map, Function.comp_def,
            List.append_assoc]
      · by_cases hbreak : c = '\n'
        · refine ⟨none, 0, Nat.zero_le _, ?_⟩
          intro w behind content _ h
          rw [quotationBody_of_text h, if_neg hquote, if_neg hslash, if_pos hbreak]
          rfl
        · obtain ⟨r, n, hn, hread⟩ := exists_quotationBody quote rest
          refine ⟨r.map (c :: ·), n + 1, by simpa using hn, ?_⟩
          intro w behind content hb h
          have hadvance : w.advance.text = rest ++ behind := text_advance_of_text h
          rw [Option.isSome_map] at hb
          rw [quotationBody_of_text h, if_neg hquote, if_neg hslash, if_neg hbreak]
          simp only [hread _ behind _ hb hadvance, pass_succ, List.reverse_cons, Option.map_map,
            Function.comp_def, List.append_assoc, List.singleton_append]
termination_by text => text.length

theorem exists_quotation (quote : Char) (rest : List Char) :
    ∃ (r : Except (LexCause × Nat) String) (n : Nat), n ≤ rest.length + 1 ∧
      ∀ (w : Window) (behind : List Char), (r.isOk = true ∨ behind = []) →
        w.text = quote :: rest ++ behind →
          quotation quote w = (placedAt w.position r, w.pass n) := by
  obtain ⟨content, n, hn, hread⟩ := exists_quotationBody quote rest
  cases content with
  | none =>
    refine ⟨.error (.unterminatedString, n + 1), n + 1, Nat.succ_le_succ hn, ?_⟩
    intro w behind hb h
    have hbehind : behind = [] := hb.resolve_left Bool.false_ne_true
    have hadvance : w.advance.text = rest ++ behind := text_advance_of_text h
    have hlength : n + 1 ≤ (quote :: rest).length := Nat.succ_le_succ hn
    have hposition := position_pass_append hlength h
    rw [pass_succ] at hposition
    simp only [quotation, hread _ behind _ (.inr hbehind) hadvance, Option.map_none,
      placedAt_error, spanFrom, pass_succ, hposition]
  | some content =>
    refine ⟨.ok (String.ofList content), n + 1, Nat.succ_le_succ hn, ?_⟩
    intro w behind _ h
    have hadvance : w.advance.text = rest ++ behind := text_advance_of_text h
    simp only [quotation, hread _ behind _ (.inl rfl) hadvance, Option.map_some,
      placedAt_ok, pass_succ, List.reverse_nil, List.nil_append]

/-! ## Lexemes and tokens -/

/-- Names never fail. -/
theorem exists_nameLexeme (text : List Char) :
    ∃ (l : Lexeme) (n : Nat), n ≤ text.length ∧
      ∀ (w : Window) (behind : List Char), Closes behind → w.text = text ++ behind →
        w.nameLexeme = (.ok l, w.pass n) := by
  obtain ⟨chars, n, hn, hread⟩ := exists_run seals_nameParts text
  refine ⟨.ofName (String.ofList chars), n, hn, ?_⟩
  intro w behind hb h
  simp only [nameLexeme, hread w behind hb h]

/-- A symbol looks at one more character, for its equals sign. -/
theorem exists_symbolLexeme (c : Char) (rest : List Char) :
    ∃ (r : Except (LexCause × Nat) Lexeme) (n : Nat), n ≤ rest.length + 1 ∧
      ∀ (w : Window) (behind : List Char), Closes behind → w.text = c :: rest ++ behind →
        symbolLexeme c w = (placedAt w.position r, w.pass n) := by
  have hequals : ∀ {w : Window} {behind : List Char}, Closes behind →
      w.text = c :: rest ++ behind → (w.following? = some '=' ↔ rest.head? = some '=') := by
    intro w behind hb h
    rw [List.cons_append] at h
    rw [following?_of_text h]
    exact hb.head?_eq_some_iff (by decide) rest
  cases hpair : if rest.head? = some '=' then Symbol.withEquals? c else none with
  | some s =>
    have hlength : 1 ≤ rest.length := by
      cases rest with
      | nil => simp at hpair
      | cons d rest => simp
    refine ⟨.ok (.symbol s), 2, Nat.succ_le_succ hlength, ?_⟩
    intro w behind hb h
    simp only [symbolLexeme, hequals hb h, hpair]
    rfl
  | none =>
    have hlength : 1 ≤ (c :: rest).length := Nat.succ_le_succ (Nat.zero_le _)
    cases hsymbol : Symbol.ofChar? c with
    | some s =>
      refine ⟨.ok (.symbol s), 1, hlength, ?_⟩
      intro w behind hb h
      simp only [symbolLexeme, hequals hb h, hpair, hsymbol]
      rfl
    | none =>
      refine ⟨.error (.invalidToken c, 1), 1, hlength, ?_⟩
      intro w behind hb h
      have hposition := position_pass_append hlength h
      rw [pass_one] at hposition
      simp only [symbolLexeme, hequals hb h, hpair, hsymbol, placedAt_error, spanFrom, hposition,
        pass_one]

/-- A character that a string begins with. -/
def opensString (c : Char) : Bool := c == '"' || c == '\''

/-- **A lexeme is read in the same way wherever it stands.** -/
theorem exists_lexeme (c : Char) (rest : List Char) :
    ∃ (r : Except (LexCause × Nat) Lexeme) (n : Nat), n ≤ rest.length + 1 ∧
      ∀ (w : Window) (behind : List Char), Closes behind →
        (r.isOk = true ∨ behind = [] ∨ opensString c = false) →
          w.text = c :: rest ++ behind → lexeme c w = (placedAt w.position r, w.pass n) := by
  by_cases hname : isNameStart c = true
  · obtain ⟨l, n, hn, hread⟩ := exists_nameLexeme (c :: rest)
    refine ⟨.ok l, n, hn, ?_⟩
    intro w behind hb _ h
    rw [lexeme, if_pos hname, hread w behind hb h]
    rfl
  · by_cases hdigit : c.isDigit = true
    · obtain ⟨r, n, hn, hread⟩ := exists_number (c :: rest)
      refine ⟨r.map .number, n, hn, ?_⟩
      intro w behind hb _ h
      simp only [lexeme, if_neg hname, if_pos hdigit, hread w behind hb h]
      cases r <;> rfl
    · by_cases hquote : c = '"' ∨ c = '\''
      · obtain ⟨r, n, hn, hread⟩ := exists_quotation c rest
        refine ⟨r.map .string, n, hn, ?_⟩
        intro w behind _ hok h
        have hopens : opensString c = true := by simpa [opensString] using hquote
        have hok' : r.isOk = true ∨ behind = [] := by
          cases r with
          | ok text => exact .inl rfl
          | error e =>
            rcases hok with hok | hnil | hnot
            · cases hok
            · exact .inr hnil
            · cases hopens.symm.trans hnot
        simp only [lexeme, if_neg hname, if_neg hdigit, if_pos hquote, hread w behind hok' h]
        cases r <;> rfl
      · obtain ⟨r, n, hn, hread⟩ := exists_symbolLexeme c rest
        refine ⟨r, n, hn, ?_⟩
        intro w behind hb _ h
        rw [lexeme, if_neg hname, if_neg hdigit, if_neg hquote, hread w behind hb h]

end Window

end FormulaSyntax
