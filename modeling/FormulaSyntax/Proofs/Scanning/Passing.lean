import FormulaSyntax.Scan.Tokenizer

/-!
# Windows further on

Everything that scanning does to a window is to let characters pass. `pass n` is the window after
`n` of them, and a statement about scanning has the form

    the text begins with a word   →   the scan yields this, and leaves `w.pass word.length`.

The text further on and the position further on follow from the two lemmas about `pass`, so no
statement has to repeat them.

The second half is about runs. What a run of a window keeps are characters in a row that the judge
keeps (`run_keep`), and every character that it keeps is one that the judge kept (`mem_run`).
-/

set_option autoImplicit false

namespace FormulaSyntax

namespace Window

/-- The window after a number of characters have passed. -/
def pass : Nat → Window → Window
  | 0, w => w
  | n + 1, w => pass n w.advance

@[simp] theorem pass_zero (w : Window) : w.pass 0 = w := rfl

theorem pass_succ (n : Nat) (w : Window) : w.pass (n + 1) = w.advance.pass n := rfl

@[simp] theorem pass_one (w : Window) : w.pass 1 = w.advance := rfl

theorem pass_pass (m n : Nat) (w : Window) : (w.pass m).pass n = w.pass (m + n) := by
  induction m generalizing w with
  | zero => rw [Nat.zero_add, pass_zero]
  | succ m ih => rw [pass_succ, ih, Nat.add_right_comm, pass_succ]

theorem advance_pass (n : Nat) (w : Window) : (w.pass n).advance = w.pass (n + 1) := by
  rw [← pass_one, pass_pass]

/-- What is left are the characters behind those that passed. -/
@[simp] theorem text_pass (n : Nat) (w : Window) : (w.pass n).text = w.text.drop n := by
  induction n generalizing w with
  | zero => rfl
  | succ n ih => rw [pass_succ, ih, text_advance, List.drop_tail]

/-- The position counts the characters that passed. -/
theorem position_pass {n : Nat} {w : Window} (h : n ≤ w.text.length) :
    (w.pass n).position = w.position + n := by
  induction n generalizing w with
  | zero => rfl
  | succ n ih =>
    cases ht : w.text with
    | nil => simp [ht] at h
    | cons c rest =>
      have hc : w.current? = some c := by rw [current?_eq_head?, ht, List.head?_cons]
      have hn : n ≤ w.advance.text.length := by
        rw [ht, List.length_cons] at h
        rw [text_advance, ht, List.tail_cons]
        omega
      rw [pass_succ, ih hn, position_advance hc, Nat.add_assoc, Nat.add_comm 1 n]

/-! ## What is in view -/

variable {w : Window} {c : Char} {word rest : List Char}

theorem current?_of_text (h : w.text = c :: rest) : w.current? = some c := by
  rw [current?_eq_head?, h, List.head?_cons]

theorem following?_of_text (h : w.text = c :: rest) : w.following? = rest.head? := by
  rw [following?_eq_getElem?, h, List.getElem?_cons_succ, List.head?_eq_getElem?]

theorem text_advance_of_text (h : w.text = c :: rest) : w.advance.text = rest := by
  rw [text_advance, h, List.tail_cons]

/-- A character in view is the first of the text. -/
theorem text_of_current? (h : w.current? = some c) : w.text = c :: w.advance.text := by
  rw [current?_eq_head?] at h
  obtain ⟨rest, hrest⟩ := List.head?_eq_some_iff.mp h
  rw [text_advance, hrest, List.tail_cons]

theorem text_pass_of_text (h : w.text = word ++ rest) : (w.pass word.length).text = rest := by
  rw [text_pass, h, List.drop_left]

/-! ## Runs -/

variable {judge : Char → Option Char → Verdict}

theorem gather_of_stop (kept : List Char) (h : ∀ c ∈ w.text.head?, ∀ d, judge c d = .stop) :
    gather judge w kept = (kept.reverse, w) := by
  rw [gather]
  split
  · rfl
  · next c hc =>
    rw [current?_eq_head?] at hc
    rw [h c hc]

/-- Characters in a row that the judge keeps are gathered, up to one in front of which it
    stops. -/
theorem gather_keep (kept : List Char) (h : w.text = word ++ rest)
    (hword : ∀ c ∈ word, ∀ d, judge c d = .keep)
    (hrest : ∀ c ∈ rest.head?, ∀ d, judge c d = .stop) :
    gather judge w kept = (kept.reverse ++ word, w.pass word.length) := by
  induction word generalizing w kept with
  | nil =>
    rw [gather_of_stop kept (h ▸ hrest), List.append_nil]
    rfl
  | cons c word ih =>
    have hadvance : w.advance.text = word ++ rest := text_advance_of_text h
    rw [gather]
    split
    · next hc => simp [current?_of_text h] at hc
    · next d hd =>
      obtain rfl : c = d := Option.some.inj ((current?_of_text h).symm.trans hd)
      rw [hword c List.mem_cons_self,
        ih (c :: kept) hadvance fun d hd => hword d (List.mem_cons_of_mem _ hd)]
      simp [pass_succ]

theorem gather_skip (kept : List Char) (h : w.text = word ++ rest)
    (hword : ∀ c ∈ word, ∀ d, judge c d = .skip) :
    gather judge w kept = gather judge (w.pass word.length) kept := by
  induction word generalizing w with
  | nil => rfl
  | cons c word ih =>
    have hadvance : w.advance.text = word ++ rest := text_advance_of_text h
    rw [gather]
    split
    · next hc => simp [current?_of_text h] at hc
    · next d hd =>
      obtain rfl : c = d := Option.some.inj ((current?_of_text h).symm.trans hd)
      rw [hword c List.mem_cons_self,
        ih hadvance fun d hd => hword d (List.mem_cons_of_mem _ hd)]
      rfl

/-- **A run yields the characters that the judge keeps, up to one in front of which it stops.** -/
theorem run_keep (h : w.text = word ++ rest) (hword : ∀ c ∈ word, ∀ d, judge c d = .keep)
    (hrest : ∀ c ∈ rest.head?, ∀ d, judge c d = .stop) :
    w.run judge = (word, w.pass word.length) :=
  gather_keep [] h hword hrest

theorem run_stop (h : ∀ c ∈ w.text.head?, ∀ d, judge c d = .stop) : w.run judge = ([], w) :=
  gather_of_stop [] h

theorem mem_gather {kept : List Char} (h : c ∈ (gather judge w kept).1) :
    c ∈ kept ∨ ∃ d, judge c d = .keep := by
  fun_induction gather judge w kept with
  | case1 w kept hc => exact .inl (List.mem_reverse.mp h)
  | case2 w kept first hc hj ih =>
    rcases ih h with hmem | hkeep
    · rcases List.mem_cons.mp hmem with rfl | hmem
      · exact .inr ⟨_, hj⟩
      · exact .inl hmem
    · exact .inr hkeep
  | case3 w kept first hc hj ih => exact ih h
  | case4 w kept first hc hj => exact .inl (List.mem_reverse.mp h)

/-- What is kept was kept by the judge, whatever it was shown behind it. -/
theorem mem_run (h : c ∈ (w.run judge).1) : ∃ d, judge c d = .keep := by
  rcases mem_gather h with hmem | hkeep
  · exact nomatch hmem
  · exact hkeep

theorem exists_gather_eq (judge : Char → Option Char → Verdict) (w : Window) (kept : List Char) :
    ∃ others, (gather judge w kept).1 = kept.reverse ++ others := by
  fun_induction gather judge w kept with
  | case1 w kept hc => exact ⟨[], (List.append_nil _).symm⟩
  | case2 w kept first hc hj ih =>
    obtain ⟨others, h⟩ := ih
    exact ⟨first :: others, by rw [h, List.reverse_cons, List.append_assoc]; rfl⟩
  | case3 w kept first hc hj ih => exact ih
  | case4 w kept first hc hj => exact ⟨[], (List.append_nil _).symm⟩

theorem exists_run_eq_cons (hc : w.current? = some c) (hj : ∀ d, judge c d = .keep) :
    ∃ others, (w.run judge).1 = c :: others := by
  rw [run, gather]
  split
  · next h => simp [hc] at h
  · next d hd =>
    obtain rfl : c = d := Option.some.inj (hc.symm.trans hd)
    rw [hj]
    exact exists_gather_eq judge w.advance [c]

end Window

end FormulaSyntax
