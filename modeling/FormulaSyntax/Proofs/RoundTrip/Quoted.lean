import FormulaSyntax.Proofs.Scanning.Lexable

/-!
# Quoted texts in a source

`Text.quoted` writes a text as a value, for a human reader and with the escapes of values. The
scanner has escapes of its own, and knows none by code point. So a quoted text can always be read
as a string literal, but **a character written by code point is read as the characters of its
escape**, the backslash included: that is `Text.reread`. All other characters come back.

`rereadText_eq_iff` draws the line: a text comes back just when none of its characters is written by
code point. The escape of one character is four characters at least, so no loss can be made up
for elsewhere in the text.
-/

set_option autoImplicit false

namespace FormulaSyntax

/-! ## Escapes by code point -/

namespace Text

/-- A character is written by code point in a quoted text. -/
def ByCodePoint (c : Char) : Prop := quotedChar '"' c = codePointEscape c

instance (c : Char) : Decidable (ByCodePoint c) := by
  unfold ByCodePoint
  infer_instance

/-- What a character of a quoted text is read as. -/
def reread (c : Char) : List Char := if ByCodePoint c then codePointEscape c else [c]

theorem mem_toDigits {n : Nat} {c : Char} (h : c ∈ Nat.toDigits 16 n) :
    ∃ d, c = Nat.digitChar d := by
  induction n using Nat.strongRecOn with
  | ind n ih =>
    rw [Nat.toDigits_eq_if (by decide)] at h
    split at h
    · exact ⟨n, List.mem_singleton.mp h⟩
    · rcases List.mem_append.mp h with h | h
      · exact ih (n / 16) (by omega) h
      · exact ⟨n % 16, List.mem_singleton.mp h⟩

/-- The escape by code point means its own characters, since the scanner does not know it. -/
theorem body_codePointEscape (c : Char) : Body '"' (codePointEscape c) (codePointEscape c) := by
  have hbehind : Body '"' ('\x7b' :: Nat.toDigits 16 c.toNat ++ ['\x7d'])
      ('\x7b' :: Nat.toDigits 16 c.toNat ++ ['\x7d']) := by
    apply body_self
    intro d hd
    have hcases : d = '\x7b' ∨ d ∈ Nat.toDigits 16 c.toNat ∨ d = '\x7d' := by simpa using hd
    rcases hcases with rfl | hd | rfl
    · decide
    · obtain ⟨n, rfl⟩ := mem_toDigits hd
      exact ⟨Nat.digitChar_ne _ (by decide), Nat.digitChar_ne _ (by decide),
        Nat.digitChar_ne _ (by decide)⟩
    · decide
  exact .pair 'u' hbehind

/-- The characters with a short escape in a quoted text. -/
def shortEscaped : List Char := ['\x00', '\t', '\n', '\r', '\\', '"']

theorem mem_shortEscaped_iff {c : Char} :
    c ∈ shortEscaped ↔
      c = '\x00' ∨ c = '\t' ∨ c = '\n' ∨ c = '\r' ∨ c = '\\' ∨ c = '"' := by
  simp only [shortEscaped, List.mem_cons, List.not_mem_nil, or_false]

/-- A character is written with a short escape that the scanner knows, or by code point, or as it
    is. -/
theorem quotedChar_cases (c : Char) :
    (c ∈ shortEscaped ∧ ∃ letter, quotedChar '"' c = ['\\', letter] ∧
        Escape.decode? letter = some c) ∨
      (c ∉ shortEscaped ∧ needsCodePoint c = true ∧ quotedChar '"' c = codePointEscape c) ∨
      (c ∉ shortEscaped ∧ needsCodePoint c = false ∧ quotedChar '"' c = [c]) := by
  by_cases hshort : c ∈ shortEscaped
  · refine .inl ⟨hshort, ?_⟩
    rcases mem_shortEscaped_iff.mp hshort with rfl | rfl | rfl | rfl | rfl | rfl
    · exact ⟨'0', rfl, rfl⟩
    · exact ⟨'t', rfl, rfl⟩
    · exact ⟨'n', rfl, rfl⟩
    · exact ⟨'r', rfl, rfl⟩
    · exact ⟨'\\', rfl, rfl⟩
    · exact ⟨'"', rfl, rfl⟩
  · have hne := hshort
    simp only [mem_shortEscaped_iff, not_or] at hne
    obtain ⟨h0, ht, hn, hr, hslash, hquote⟩ := hne
    have hlong : quotedChar '"' c = if needsCodePoint c then codePointEscape c else [c] := by
      simp only [quotedChar, if_neg h0, if_neg ht, if_neg hn, if_neg hr, if_neg hslash,
        if_neg hquote]
    cases hneeds : needsCodePoint c with
    | true => exact .inr (.inl ⟨hshort, rfl, by rw [hlong, if_pos hneeds]⟩)
    | false => exact .inr (.inr ⟨hshort, rfl, by rw [hlong, hneeds]; rfl⟩)

theorem four_le_length_codePointEscape (c : Char) : 4 ≤ (codePointEscape c).length := by
  simp [codePointEscape]

theorem not_byCodePoint_of_length {c : Char} (h : (quotedChar '"' c).length < 4) :
    ¬ ByCodePoint c := by
  intro heq
  rw [heq] at h
  exact absurd (four_le_length_codePointEscape c) (Nat.not_le_of_lt h)

/-- **The characters written by code point** are those that have no printed form of their own,
    but for the four of them that have a short escape. -/
theorem byCodePoint_iff {c : Char} :
    ByCodePoint c ↔
      needsCodePoint c = true ∧ c ≠ '\x00' ∧ c ≠ '\t' ∧ c ≠ '\n' ∧ c ≠ '\r' := by
  rcases quotedChar_cases c with ⟨hshort, letter, hc, -⟩ | ⟨hlong, hneeds, hc⟩ | ⟨-, hneeds, hc⟩
  · have hnot : ¬ ByCodePoint c := not_byCodePoint_of_length (by simp [hc])
    rw [mem_shortEscaped_iff] at hshort
    constructor
    · exact fun h => absurd h hnot
    · rintro ⟨hneeds, h0, ht, hn, hr⟩
      -- What is left are the backslash and the quote, which have a printed form.
      have hprinted : c = '\\' ∨ c = '"' := by simpa [h0, ht, hn, hr] using hshort
      rcases hprinted with rfl | rfl
      · exact absurd hneeds (by decide)
      · exact absurd hneeds (by decide)
  · simp only [mem_shortEscaped_iff, not_or] at hlong
    constructor
    · intro _
      exact ⟨hneeds, hlong.1, hlong.2.1, hlong.2.2.1, hlong.2.2.2.1⟩
    · exact fun _ => hc
  · have hnot : ¬ ByCodePoint c := not_byCodePoint_of_length (by simp [hc])
    simp [hnot, hneeds]

theorem body_quotedChar (c : Char) : Body '"' (quotedChar '"' c) (reread c) := by
  rcases quotedChar_cases c with ⟨-, letter, hc, hletter⟩ | ⟨-, -, hc⟩ | ⟨hplain, -, hc⟩
  · have hnot : ¬ ByCodePoint c := not_byCodePoint_of_length (by simp [hc])
    rw [reread, if_neg hnot, hc]
    exact body_pair hletter
  · have hby : ByCodePoint c := hc
    rw [reread, if_pos hby, hc]
    exact body_codePointEscape c
  · have hnot : ¬ ByCodePoint c := not_byCodePoint_of_length (by simp [hc])
    simp only [mem_shortEscaped_iff, not_or] at hplain
    rw [reread, if_neg hnot, hc]
    exact .plain hplain.2.2.2.2.2 hplain.2.2.2.2.1 hplain.2.2.1 .nil

/-! ## Texts that come back -/

/-- What a quoted text is read as. -/
def rereadText (text : String) : String := String.ofList (text.toList.flatMap reread)

theorem length_reread_pos (c : Char) : 1 ≤ (reread c).length := by
  unfold reread
  split
  · exact Nat.le_trans (by decide) (four_le_length_codePointEscape c)
  · exact Nat.le_refl 1

theorem length_le_flatMap_reread (text : List Char) :
    text.length ≤ (text.flatMap reread).length := by
  induction text with
  | nil => exact Nat.le_refl 0
  | cons c text ih =>
    have hc := length_reread_pos c
    rw [List.flatMap_cons, List.length_append, List.length_cons]
    omega

theorem flatMap_reread_eq_iff {text : List Char} :
    text.flatMap reread = text ↔ ∀ c ∈ text, ¬ ByCodePoint c := by
  induction text with
  | nil => simp
  | cons c text ih =>
    rw [List.flatMap_cons, List.forall_mem_cons]
    by_cases hc : ByCodePoint c
    · -- The escape is longer than the character, and the rest is not shorter than it was.
      constructor
      · intro heq
        have hlength := congrArg List.length heq
        have hle := length_le_flatMap_reread text
        have hfour := four_le_length_codePointEscape c
        rw [reread, if_pos hc, List.length_append, List.length_cons] at hlength
        omega
      · exact fun h => absurd hc h.1
    · rw [reread, if_neg hc, List.singleton_append, List.cons_inj_right, ih]
      exact ⟨fun h => ⟨hc, h⟩, fun h => h.2⟩

/-- **A text comes back** just when none of its characters is written by code point. -/
theorem rereadText_eq_iff {text : String} :
    rereadText text = text ↔ ∀ c ∈ text.toList, ¬ ByCodePoint c := by
  rw [← flatMap_reread_eq_iff, rereadText, ← String.toList_inj, String.toList_ofList]

end Text

/-- **A quoted text spells a string**, with the content that it is read as. -/
theorem spells_quoted (text : String) :
    Spells (Text.quoted text).toList (.string (Text.rereadText text)) := by
  have hbody := body_flatMap Text.body_quotedChar text.toList
  have hstring := Spells.string (.inl rfl) hbody
  simpa [Text.quoted, Text.quotedWith, Text.rereadText] using hstring

end FormulaSyntax
